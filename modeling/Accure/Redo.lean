import Accure.Edits

set_option autoImplicit false

namespace Accure

def NoPolicy (s : State) (t : AccessTuple) : Prop := ∀ q ∈ s.policies, q.tuple ≠ t

instance (s : State) (t : AccessTuple) : Decidable (NoPolicy s t) :=
  inferInstanceAs (Decidable (∀ q ∈ s.policies, q.tuple ≠ t))

theorem rests_on_before (s : State) (t : AccessTuple) (a d : Dot) (rests : RestsOn s t a) (before : (s.dagAt t).Before d a) :
    RestsOn s t d := by
  obtain ⟨top, dep, same | above⟩ := rests
  · exact ⟨top, dep, Or.inr ((mem_ancestors _ _ _).mpr (same ▸ before))⟩
  · exact ⟨top, dep, Or.inr ((mem_ancestors _ _ _).mpr (before.trans ((mem_ancestors _ _ _).mp above)))⟩

section Arrived

variable (rank : Dot → Nat) (s : State) (target : SiteId) (right : Right) (effect : Effect) (sound : Sound rank s)
variable (arrives : PolicyArrives rank s.allocated (freshPolicy s target right effect))
variable (valid : (effectPolicy s.allocated (freshPolicy s target right effect)).markedValid
  (freshPolicy s target right effect).dot = true)

include sound arrives valid

omit sound arrives valid in
theorem fresh_log (q : PolicyOp) :
    .policy q ∈ (effectPolicy s.allocated (freshPolicy s target right effect)).log ↔
      .policy q ∈ s.log ∨ q = freshPolicy s target right effect := by simp

-- Over a void top level a fresh op is a root, while the tuple has deeper ops.
omit valid in
theorem fresh_root_low (q : PolicyOp) (member : .policy q ∈ s.log) (tuple : q.tuple = ⟨target, right⟩)
    (void : currentTopLevelDeps s ⟨target, right⟩ = []) :
    rank (freshPolicy s target right effect).dot < (s.dagAt ⟨target, right⟩).maxLevel := by
  have one : rank (freshPolicy s target right effect).dot = 1 := arrives.rankRoot void
  obtain ⟨y, yValid⟩ := some_valid rank s sound ⟨target, right⟩ q member tuple
  have yLow := rank_le_max rank s sound.toConsistent ⟨target, right⟩ y yValid.1 yValid.2.1
  have yPos := rank_pos rank s sound.toConsistent y yValid.1
  have notTop : rank y.dot ≠ (s.dagAt ⟨target, right⟩).maxLevel := by
    intro same
    have dep := (mem_top_deps rank s sound.toConsistent ⟨target, right⟩ y.dot).mpr
      ⟨⟨y, yValid.1, yValid.2.1, rfl⟩, same, yValid.2.2⟩
    rw [void] at dep
    exact absurd dep List.not_mem_nil
  omega

theorem fresh_on_top_iff : (freshPolicy s target right effect).dot ∈
      currentTopLevelDeps (effectPolicy s.allocated (freshPolicy s target right effect)) ⟨target, right⟩ ↔
    NoPolicy s ⟨target, right⟩ ∨ currentTopLevelDeps s ⟨target, right⟩ ≠ [] := by
  have after := effect_policy_sound rank _ _ (sound_allocated rank s sound) arrives
  have log := fresh_log s target right effect
  have newIn := (log _).mpr (Or.inr rfl)
  have bound := rank_le_max rank _ after.toConsistent ⟨target, right⟩ _ newIn rfl
  rw [mem_top_deps rank _ after.toConsistent]
  constructor
  · rintro ⟨_, level, _⟩
    by_contra neither
    rw [not_or, not_not] at neither
    obtain ⟨some, void⟩ := neither
    rw [NoPolicy] at some
    push Not at some
    obtain ⟨q, member, tuple⟩ := some
    have low := fresh_root_low rank s target right effect sound arrives q ((mem_state_policies s q).mp member) tuple void
    obtain ⟨d, node, attained⟩ := max_level_attained (s.dagAt ⟨target, right⟩) (by omega)
    obtain ⟨x, xIn, xTuple, rfl⟩ := (sound.nodes _ d).mp node
    rw [level_rank rank s sound.toConsistent _ _ node] at attained
    have above := rank_le_max rank _ after.toConsistent ⟨target, right⟩ x ((log x).mpr (Or.inl xIn)) xTuple
    omega
  · intro either
    refine ⟨⟨_, newIn, rfl, rfl⟩, le_antisymm bound ?_, valid⟩
    have positive := rank_pos rank _ after.toConsistent _ newIn
    obtain ⟨d, node, attained⟩ := max_level_attained
      ((effectPolicy s.allocated (freshPolicy s target right effect)).dagAt ⟨target, right⟩) (by omega)
    obtain ⟨x, xIn, xTuple, rfl⟩ := (after.nodes _ d).mp node
    rw [level_rank rank _ after.toConsistent _ _ node] at attained
    rw [← attained]
    rcases (log x).mp xIn with old | rfl
    · rcases either with nothing | top
      · exact absurd xTuple (nothing x ((mem_state_policies s x).mpr old))
      · obtain ⟨a, dep⟩ := List.exists_mem_of_ne_nil _ top
        have level := ((mem_top_deps rank s sound.toConsistent ⟨target, right⟩ a).mp dep).2.1
        have below := rank_le_max rank s sound.toConsistent ⟨target, right⟩ x old xTuple
        have step := arrives.rankDep a dep
        omega
    · exact le_refl _

end Arrived

def denyOp (s : State) (target : SiteId) : PolicyOp := freshPolicy s target .write .deny

def undone (s : State) (target : SiteId) : State := effectPolicy s.allocated (denyOp s target)

def allowOp (s : State) (target : SiteId) : PolicyOp := freshPolicy (undone s target) target .write .allow

def redone (s : State) (target : SiteId) : State := effectPolicy (undone s target).allocated (allowOp s target)

structure RoundTrip (rank other : Dot → Nat) (s : State) (target : SiteId) : Prop where
  integrity : s.strategy = .integrity
  sound : Sound rank s
  denyArrives : PolicyArrives rank s.allocated (denyOp s target)
  undoneSound : Sound other (undone s target)
  allowArrives : PolicyArrives other (undone s target).allocated (allowOp s target)

theorem integrity_favors (s : State) (integrity : s.strategy = .integrity) (effect : Effect) :
    s.strategy.favors effect = decide (effect = .deny) := by
  rw [integrity]
  rfl

section Redo

variable (rank other : Dot → Nat) (s : State) (target : SiteId) (trip : RoundTrip rank other s target)

include trip

theorem redone_sound : Sound other (redone s target) :=
  effect_policy_sound other _ _ (sound_allocated other _ trip.undoneSound) trip.allowArrives

theorem undone_sink (d : Dot) : ¬ ((undone s target).dagAt ⟨target, .write⟩).Before (denyOp s target).dot d :=
  arrival_sink rank _ _ (sound_allocated rank s trip.sound) trip.denyArrives d

theorem redone_sink (d : Dot) : ¬ ((redone s target).dagAt ⟨target, .write⟩).Before (allowOp s target).dot d :=
  arrival_sink other _ _ (sound_allocated other _ trip.undoneSound) trip.allowArrives d

theorem deny_valid : (undone s target).markedValid (denyOp s target).dot = true := by
  apply (fresh_valid_iff rank s target .write .deny trip.sound trip.denyArrives).mpr
  rw [trip.integrity]
  exact Or.inl rfl

theorem undone_integrity : (undone s target).strategy = .integrity := by
  rw [undone, effect_policy_strategy, allocated_strategy, trip.integrity]

omit trip in
theorem denies_known (sound : Sound rank s) (allowed : eval s target .write = true) (some : currentTopLevelDeps s ⟨target, .write⟩ ≠ [])
    (q : PolicyOp) (valid : Valid s ⟨target, .write⟩ q) (deny : q.effect = .deny) : RestsOn s ⟨target, .write⟩ q.dot := by
  obtain ⟨a, dep⟩ := List.exists_mem_of_ne_nil _ some
  obtain ⟨⟨top, member, tuple, rfl⟩, level, marked⟩ := (mem_top_deps rank s sound.toConsistent ⟨target, .write⟩ a).mp dep
  have topValid : Valid s ⟨target, .write⟩ top := ⟨member, tuple, marked⟩
  have highest : ∀ r, Valid s ⟨target, .write⟩ r → rank r.dot ≤ rank top.dot := by
    intro r rValid
    rw [level]
    exact rank_le_max rank s sound.toConsistent ⟨target, .write⟩ r rValid.1 rValid.2.1
  have value := eval_of_top rank s sound ⟨target, .write⟩ top topValid highest
  rw [allowed] at value
  have allow : top.effect = .allow := by simpa using value.symm
  have before := top_answers_opposite rank s sound ⟨target, .write⟩ top q topValid valid (by rw [allow, deny]; decide)
    (highest q valid)
  exact ⟨top.dot, dep, Or.inr ((mem_ancestors _ _ _).mpr before)⟩

-- The deny voids exactly what rests on an allow that it does not rest on.
theorem undone_marked_iff (q : PolicyOp) (member : .policy q ∈ s.log) (tuple : q.tuple = ⟨target, .write⟩) :
    (undone s target).markedValid q.dot = true ↔ s.markedValid q.dot = true ∧
      ∀ r, .policy r ∈ s.log → r.tuple = ⟨target, .write⟩ → r.effect = .allow →
        r.dot = q.dot ∨ (s.dagAt ⟨target, .write⟩).Before r.dot q.dot → RestsOn s ⟨target, .write⟩ r.dot := by
  have allocated := sound_allocated rank s trip.sound
  have wins : s.allocated.strategy.favors (denyOp s target).effect = true := by
    rw [allocated_strategy, trip.integrity]
    rfl
  have accepted := (arrival_accepted rank _ _ allocated trip.denyArrives
    (fresh_deps_valid rank s target .write trip.sound)).mpr (Or.inl wins)
  have keeps := arrival_winner_keeps rank _ _ allocated trip.denyArrives wins accepted q member tuple
  have loses : ∀ r : PolicyOp, s.allocated.strategy.favors r.effect = false ↔ r.effect = .allow := by
    intro r
    rw [allocated_strategy, integrity_favors s trip.integrity]
    cases r.effect <;> simp
  refine keeps.trans (and_congr Iff.rfl (forall_congr' fun r => ?_))
  refine imp_congr Iff.rfl (imp_congr Iff.rfl (imp_congr (loses r) (imp_congr Iff.rfl ?_)))
  exact fresh_before rank s target .write .deny trip.sound trip.denyArrives r.dot

theorem redone_keeps (q : PolicyOp) (member : .policy q ∈ (undone s target).log) (tuple : q.tuple = ⟨target, .write⟩) :
    (redone s target).markedValid q.dot = (undone s target).markedValid q.dot := by
  have loses : (undone s target).allocated.strategy.favors (allowOp s target).effect = false := by
    rw [allocated_strategy, undone, effect_policy_strategy, allocated_strategy, trip.integrity]
    rfl
  exact arrival_loser_keeps other _ _ (sound_allocated other _ trip.undoneSound) trip.allowArrives loses q member tuple

theorem deny_before_allow_iff : RestsOn (undone s target) ⟨target, .write⟩ (denyOp s target).dot ↔
    NoPolicy s ⟨target, .write⟩ ∨ currentTopLevelDeps s ⟨target, .write⟩ ≠ [] := by
  have valid := deny_valid rank other s target trip
  refine Iff.trans ?_ (fresh_on_top_iff rank s target .write .deny trip.sound trip.denyArrives valid)
  constructor
  · rintro ⟨a, dep, same | above⟩
    · exact same ▸ dep
    · exact absurd ((mem_ancestors _ _ _).mp above) (undone_sink rank other s target trip a)
  · exact fun dep => ⟨_, dep, Or.inl rfl⟩

theorem allow_valid_iff (allowed : eval s target .write = true) :
    (redone s target).markedValid (allowOp s target).dot = true ↔
      NoPolicy s ⟨target, .write⟩ ∨ currentTopLevelDeps s ⟨target, .write⟩ ≠ [] := by
  have denyMarked := deny_valid rank other s target trip
  have denyIn : .policy (denyOp s target) ∈ (undone s target).log := by simp [undone]
  have deep := deny_before_allow_iff rank other s target trip
  refine (fresh_valid_iff other _ target .write .allow trip.undoneSound trip.allowArrives).trans ?_
  have favors := integrity_favors (undone s target) (undone_integrity rank other s target trip)
  rw [favors, decide_eq_true_eq, ← deep]
  constructor
  · intro either
    exact either.resolve_left (by decide) (denyOp s target) ⟨denyIn, rfl, denyMarked⟩ (by rw [favors]; rfl)
  · intro rests
    refine Or.inr fun q valid deny => ?_
    rw [favors, decide_eq_true_eq] at deny
    have member : .policy q ∈ s.log ∨ q = denyOp s target := by simpa [undone] using valid.1
    rcases member with old | new
    · have oldMarked := ((undone_marked_iff rank other s target trip q old valid.2.1).mp valid.2.2).1
      rcases deep.mp rests with nothing | some
      · exact absurd valid.2.1 (nothing q ((mem_state_policies s q).mpr old))
      · have known := denies_known rank s target trip.sound allowed some q ⟨old, valid.2.1, oldMarked⟩ deny
        exact rests_on_before _ _ _ _ rests ((fresh_before rank s target .write .deny trip.sound trip.denyArrives q.dot).mpr known)
    · exact new ▸ rests

theorem redone_allows (d : DocOp) (member : .document d ∈ s.log) (emitter : d.dot.site = target)
    (valid : (redone s target).markedValid (allowOp s target).dot = true) :
    isValidDocument (redone s target) d = depsAccepted (redone s target) d := by
  subst emitter
  have after := redone_sound rank other s d.dot.site trip
  have covered : covers (allowOp s d.dot.site) d.dot = true := by
    obtain ⟨l, last, site, bound⟩ := last_dot_bound (undone s d.dot.site) d.dot.site d (by simp [undone, member]) rfl
    have seen : (allowOp s d.dot.site).lastDotSeen = some l := last
    unfold covers
    rw [seen]
    split
    · rfl
    · simp [site, bound]
  have allowIn : .policy (allowOp s d.dot.site) ∈ (redone s d.dot.site).log := by simp [redone]
  have decided := decided_by other _ after.toConsistent d.tuple (fun p => covers p d.dot) (allowOp s d.dot.site)
    ⟨allowIn, rfl, valid, covered⟩ (by
      intro q candidate deeper
      have qValid : Valid (redone s d.dot.site) d.tuple q := ⟨candidate.logged, candidate.tuple, candidate.valid⟩
      by_contra opposed
      rcases opposites_ordered other _ after d.tuple _ q ⟨allowIn, rfl, valid⟩ qValid opposed with above | below
      · exact redone_sink rank other s d.dot.site trip q.dot above
      · have less := before_rank other _ after d.tuple _ _ below
        omega)
  rw [is_valid_document_eq, decided]
  rfl

theorem redone_denies (d : DocOp) (emitter : d.dot.site = target)
    (void : (redone s target).markedValid (allowOp s target).dot = false) : isValidDocument (redone s target) d = false := by
  have after := redone_sound rank other s target trip
  have denyIn : .policy (denyOp s target) ∈ (undone s target).log := by simp [undone]
  have denyMarked : (redone s target).markedValid (denyOp s target).dot = true := by
    rw [redone_keeps rank other s target trip _ denyIn rfl]
    exact deny_valid rank other s target trip
  have inLog : .policy (denyOp s target) ∈ (redone s target).log := by simp [redone, denyIn]
  have denied := unanswered_decides other _ after ⟨target, .write⟩ (denyOp s target) ⟨inLog, rfl, denyMarked⟩ (by
    intro q valid opposed above
    have member : .policy q ∈ (undone s target).log ∨ q = allowOp s target := by simpa [redone] using valid.1
    rcases member with old | new
    · have fresh : q.dot ≠ (allowOp s target).dot := trip.allowArrives.fresh _ old
      have allocated := sound_allocated other _ trip.undoneSound
      rw [redone, effect_policy_dag] at above
      have inner := (Conflict.before_old _ _ (allowOp s target).dot
        (admit_extends other _ _ allocated.wired trip.allowArrives.fits) other
        (graph_ranked other _ allocated.wired ⟨target, .write⟩) (denyOp s target).dot q.dot fresh).mp above
      exact undone_sink rank other s target trip q.dot inner
    · have marked := valid.2.2
      rw [new] at marked
      exact absurd (marked.symm.trans void) (by decide))
  exact denied_document other _ after target denied d emitter

-- A valid op survives the round trip when the deny rests on it.
theorem survives_iff (allowed : eval s target .write = true)
    (either : NoPolicy s ⟨target, .write⟩ ∨ currentTopLevelDeps s ⟨target, .write⟩ ≠ []) (q : PolicyOp)
    (valid : Valid s ⟨target, .write⟩ q) :
    (redone s target).markedValid q.dot = true ↔ RestsOn s ⟨target, .write⟩ q.dot := by
  obtain ⟨qIn, tuple, marked⟩ := valid
  have qUndone : .policy q ∈ (undone s target).log := by simp [undone, qIn]
  rw [redone_keeps rank other s target trip q qUndone tuple, undone_marked_iff rank other s target trip q qIn tuple]
  constructor
  · rintro ⟨_, kept⟩
    cases effect : q.effect with
    | allow => exact kept q qIn tuple effect (Or.inl rfl)
    | deny =>
        rcases either with nothing | some
        · exact absurd tuple (nothing q ((mem_state_policies s q).mpr qIn))
        · exact denies_known rank s target trip.sound allowed some q ⟨qIn, tuple, marked⟩ effect
  · intro rests
    refine ⟨marked, fun r _ _ _ under => ?_⟩
    rcases under with same | before
    · exact same ▸ rests
    · exact rests_on_before s _ _ _ rests before

theorem redo_restores_iff (d : DocOp) (member : .document d ∈ s.log) (emitter : d.dot.site = target)
    (shown : s.valid d.dot = some true) : (redone s target).valid d.dot = some true ↔
      (NoPolicy s ⟨target, .write⟩ ∨ currentTopLevelDeps s ⟨target, .write⟩ ≠ []) ∧
        ∀ x ∈ d.deps, RestsOn s ⟨target, .write⟩ x := by
  have after := redone_sound rank other s target trip
  have inLog : .document d ∈ (redone s target).log := by simp [redone, undone, member]
  have settled := after.settled (.document d) inLog
  have before := trip.sound.settled (.document d) member
  rw [dot_document, isValid] at settled before
  rw [before, Option.some.injEq] at shown
  have allowed : eval s target .write = true := by
    by_contra denied
    rw [denied_document rank s trip.sound target (by simpa using denied) d emitter] at shown
    exact absurd shown (by decide)
  have tuple : d.tuple = ⟨target, .write⟩ := by rw [DocOp.tuple, emitter]
  have validIff := allow_valid_iff rank other s target trip allowed
  rw [is_valid_document_eq, Bool.and_eq_true, depsAccepted, List.all_eq_true] at shown
  have survives : NoPolicy s ⟨target, .write⟩ ∨ currentTopLevelDeps s ⟨target, .write⟩ ≠ [] → ∀ x ∈ d.deps,
      ((redone s target).valid x).getD true = true ↔ RestsOn s ⟨target, .write⟩ x := by
    intro either x dep
    obtain ⟨q, qIn, qTuple, rfl⟩ := trip.sound.docDeps d member x dep
    have oldValue := settled_value rank s trip.sound.steady q qIn
    have value := settled_value other _ after.steady q (by simp [redone, undone, qIn])
    have marked : s.markedValid q.dot = true := by
      have accepted := shown.2 q.dot dep
      rwa [oldValue] at accepted
    rw [value, Option.getD_some]
    exact survives_iff rank other s target trip allowed either q ⟨qIn, qTuple.trans tuple, marked⟩
  rw [settled, Option.some.injEq]
  constructor
  · intro restored
    have valid : (redone s target).markedValid (allowOp s target).dot = true := by
      by_contra void
      rw [redone_denies rank other s target trip d emitter (by simpa using void)] at restored
      exact absurd restored (by decide)
    have either := validIff.mp valid
    rw [redone_allows rank other s target trip d member emitter valid, depsAccepted, List.all_eq_true] at restored
    exact ⟨either, fun x dep => (survives either x dep).mp (restored x dep)⟩
  · rintro ⟨either, rests⟩
    rw [redone_allows rank other s target trip d member emitter (validIff.mpr either), depsAccepted, List.all_eq_true]
    exact fun x dep => (survives either x dep).mpr (rests x dep)

end Redo

def Restored (s next : State) (target : SiteId) : Prop :=
  ∀ d, .document d ∈ s.log → d.dot.site = target → s.valid d.dot = some true → next.valid d.dot = some true

-- Every edit of the target that is shown has deps which a decision taken now
-- rests on.
def Restorable (s : State) (target : SiteId) : Prop :=
  ∀ d, .document d ∈ s.log → d.dot.site = target → s.valid d.dot = some true →
    (NoPolicy s ⟨target, .write⟩ ∨ currentTopLevelDeps s ⟨target, .write⟩ ≠ []) ∧
      ∀ x ∈ d.deps, RestsOn s ⟨target, .write⟩ x

theorem redo_restores_all_iff (w : World) (run : CausalRun .integrity w) (i target : SiteId) (deny allow : PolicyOp)
    (s next : State) (doc last : Doc)
    (denied : updatePolicy (w.site i).state (w.site i).doc target .write .deny = .ok (deny, s, doc))
    (allowed : updatePolicy s doc target .write .allow = .ok (allow, next, last)) :
    Restored (w.site i).state next target ↔ Restorable (w.site i).state target := by
  obtain ⟨first, causal⟩ := causal_run .integrity w run
  obtain ⟨rank, rfl, rfl, sound, denyArrives, after⟩ := policy_generated first .integrity w causal i target .write .deny _ _ _ denied
  have after : Causal rank .integrity (w.generate i (.policy (denyOp (w.site i).state target))
      ⟨undone (w.site i).state target, doc⟩) := after
  have here := generate_here w i (.policy (denyOp (w.site i).state target)) ⟨undone (w.site i).state target, doc⟩
  have ok : updatePolicy ((w.generate i (.policy (denyOp (w.site i).state target))
      ⟨undone (w.site i).state target, doc⟩).site i).state ((w.generate i (.policy (denyOp (w.site i).state target))
      ⟨undone (w.site i).state target, doc⟩).site i).doc target .write .allow = .ok (allow, next, last) := by
    rw [here]
    exact allowed
  obtain ⟨other, rfl, rfl, undoneSound, allowArrives, _⟩ := policy_generated rank .integrity _ after i target .write .allow _ _ _ ok
  rw [here] at undoneSound allowArrives ⊢
  have trip : RoundTrip rank other (w.site i).state target :=
    ⟨causal.strategies i, sound, denyArrives, undoneSound, allowArrives⟩
  have each := redo_restores_iff rank other (w.site i).state target trip
  constructor
  · exact fun restored d member emitter shown => (each d member emitter shown).mp (restored d member emitter shown)
  · exact fun holds d member emitter shown => (each d member emitter shown).mpr (holds d member emitter shown)

def twoGrants : List Action :=
  [.policy "B" "C" .write .allow, .sync "C" "B" [⟨"B", 1⟩], .rebuild "C", .document "C" (.insert 0 'c'),
    .sync "B" "C" [⟨"B", 1⟩, ⟨"C", 1⟩], .rebuild "B", .policy "A" "C" .write .allow, .policy "A" "C" .write .allow,
    .sync "A" "C" [⟨"A", 1⟩, ⟨"A", 2⟩, ⟨"B", 1⟩, ⟨"C", 1⟩], .rebuild "A"]

theorem two_grants_runs : (play .integrity twoGrants).isSome = true := by decide +kernel

def twoGrantsWorld : World := (play .integrity twoGrants).get two_grants_runs

theorem own_grant_restored :
    Restored (twoGrantsWorld.site "B").state (redone (twoGrantsWorld.site "B").state "C") "C" := by
  have denied := update_policy_accepted (twoGrantsWorld.site "B").state (twoGrantsWorld.site "B").doc "C" .write .deny
    (by decide +kernel)
  have allowed := update_policy_accepted (undone (twoGrantsWorld.site "B").state "C")
    ((twoGrantsWorld.site "B").doc.append (.policy (denyOp (twoGrantsWorld.site "B").state "C"))) "C" .write .allow
    (by decide +kernel)
  refine (redo_restores_all_iff twoGrantsWorld (played .integrity twoGrants two_grants_runs) "B" "C" _ _ _ _ _ _
    denied allowed).mpr ?_
  intro d member _ _
  have rests : ∀ o ∈ (twoGrantsWorld.site "B").state.log, ∀ x ∈ o.deps,
      RestsOn (twoGrantsWorld.site "B").state ⟨"C", .write⟩ x := by decide +kernel
  exact ⟨Or.inr (by decide +kernel), rests _ member⟩

-- A's deny names only its own chain of allows, so it voids B's for good.
theorem other_grant_lost : ¬ ∀ w, CausalRun .integrity w → ∀ i target, target ≠ i → ∀ deny s doc allow next last,
    updatePolicy (w.site i).state (w.site i).doc target .write .deny = .ok (deny, s, doc) →
    updatePolicy s doc target .write .allow = .ok (allow, next, last) → Restored (w.site i).state next target := by
  intro holds
  have denied := update_policy_accepted (twoGrantsWorld.site "A").state (twoGrantsWorld.site "A").doc "C" .write .deny
    (by decide +kernel)
  have allowed := update_policy_accepted (undone (twoGrantsWorld.site "A").state "C")
    ((twoGrantsWorld.site "A").doc.append (.policy (denyOp (twoGrantsWorld.site "A").state "C"))) "C" .write .allow
    (by decide +kernel)
  have restored := holds twoGrantsWorld (played .integrity twoGrants two_grants_runs) "A" "C" (by decide) _ _ _ _ _ _
    denied allowed ⟨⟨"C", 1⟩, [⟨"B", 1⟩], .insert 0 'c'⟩ (by decide +kernel) rfl (by decide +kernel)
  exact absurd restored (by decide +kernel)

end Accure
