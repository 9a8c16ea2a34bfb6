import Accure.Causal

set_option autoImplicit false

namespace Accure

section Places

variable (rank other : Dot → Nat) (s u : State) (sound : Sound rank s) (uSound : Sound other u)
variable (one : ∀ o ∈ s.log, ∀ x ∈ u.log, o.dot = x.dot → o = x)

include sound uSound one

theorem same_dep (p : PolicyOp) (here : .policy p ∈ s.log) (there : .policy p ∈ u.log) (a : Dot) (dep : a ∈ p.deps) :
    ∃ q, .policy q ∈ s.log ∧ .policy q ∈ u.log ∧ q.tuple = p.tuple ∧ q.dot = a := by
  obtain ⟨q, qIn, tuple, rfl⟩ := sound.deps p here a dep
  obtain ⟨r, rIn, _, same⟩ := uSound.deps p there q.dot dep
  have equal := one (.policy q) qIn (.policy r) rIn same.symm
  exact ⟨q, qIn, equal ▸ rIn, tuple, rfl⟩

theorem before_there (t : AccessTuple) (a b : Dot) (before : (s.dagAt t).Before a b) (p : PolicyOp)
    (here : .policy p ∈ s.log) (there : .policy p ∈ u.log) (tuple : p.tuple = t) (dot : p.dot = b) :
    (u.dagAt t).Before a b := by
  induction before generalizing p with
  | @single b edge =>
      subst tuple dot
      exact .single ((parents_of_op other u uSound.wired p there a).mpr
        ((parents_of_op rank s sound.wired p here a).mp edge))
  | @tail b c _ edge ih =>
      subst tuple dot
      have dep := (parents_of_op rank s sound.wired p here b).mp edge
      obtain ⟨q, qHere, qThere, same, qDot⟩ := same_dep rank other s u sound uSound one p here there b dep
      exact (ih q qHere qThere same qDot).tail ((parents_of_op other u uSound.wired p there b).mpr dep)

theorem rank_there (bound : Nat) (p : PolicyOp) (here : .policy p ∈ s.log) (there : .policy p ∈ u.log)
    (low : rank p.dot < bound) : other p.dot = rank p.dot := by
  induction bound generalizing p with
  | zero => omega
  | succ bound ih =>
      cases deps : p.deps with
      | nil => rw [sound.rankRoot p here deps, uSound.rankRoot p there deps]
      | cons a rest =>
          have dep : a ∈ p.deps := deps ▸ List.mem_cons_self
          obtain ⟨q, qHere, qThere, _, rfl⟩ := same_dep rank other s u sound uSound one p here there a dep
          have step := sound.rankDep p here q.dot dep
          rw [uSound.rankDep p there q.dot dep, step, ih q qHere qThere (by omega)]

theorem level_there (p : PolicyOp) (here : .policy p ∈ s.log) (there : .policy p ∈ u.log) :
    (u.dagAt p.tuple).level p.dot = (s.dagAt p.tuple).level p.dot := by
  have node := (sound.nodes p.tuple p.dot).mpr ⟨p, here, rfl, rfl⟩
  have uNode := (uSound.nodes p.tuple p.dot).mpr ⟨p, there, rfl, rfl⟩
  rw [level_rank rank s sound.toConsistent p.tuple p.dot node, level_rank other u uSound.toConsistent p.tuple p.dot uNode]
  exact rank_there rank other s u sound uSound one (rank p.dot + 1) p here there (Nat.lt_succ_self _)

end Places

section Both

variable (rank other : Dot → Nat) (s u : State) (sound : Sound rank s) (uSound : Sound other u)
variable (one : ∀ o ∈ s.log, ∀ x ∈ u.log, o.dot = x.dot → o = x)

include sound uSound one

theorem before_both (t : AccessTuple) (p : PolicyOp) (here : .policy p ∈ s.log) (there : .policy p ∈ u.log)
    (tuple : p.tuple = t) (a : Dot) : (u.dagAt t).Before a p.dot ↔ (s.dagAt t).Before a p.dot := by
  constructor
  · intro before
    exact before_there other rank u s uSound sound (fun o oIn x xIn same => (one x xIn o oIn same.symm).symm) t a p.dot
      before p there here tuple rfl
  · exact fun before => before_there rank other s u sound uSound one t a p.dot before p here there tuple rfl

theorem ancestors_both (p : PolicyOp) (here : .policy p ∈ s.log) (there : .policy p ∈ u.log) :
    (u.dagAt p.tuple).ancestors p.dot = (s.dagAt p.tuple).ancestors p.dot := by
  apply OrderedSet.ext
  intro a
  rw [mem_ancestors, mem_ancestors]
  exact before_both rank other s u sound uSound one p.tuple p here there rfl a

theorem concurrent_both (p c : PolicyOp) (pHere : .policy p ∈ s.log) (pThere : .policy p ∈ u.log)
    (cHere : .policy c ∈ s.log) (cThere : .policy c ∈ u.log) (tuple : c.tuple = p.tuple) :
    (u.graph p.tuple).Concurrent p.dot c.dot ↔ (s.graph p.tuple).Concurrent p.dot c.dot := by
  have pBefore := before_both rank other s u sound uSound one p.tuple p pHere pThere rfl c.dot
  have cBefore := before_both rank other s u sound uSound one p.tuple c cHere cThere tuple p.dot
  exact and_congr_right fun _ => and_congr (not_congr cBefore) (not_congr pBefore)

theorem conflicts_both (p c : PolicyOp) (pHere : .policy p ∈ s.log) (pThere : .policy p ∈ u.log)
    (cHere : .policy c ∈ s.log) (cThere : .policy c ∈ u.log) :
    c ∈ conflicts u p (u.dagAt p.tuple) ↔ c ∈ conflicts s p (s.dagAt p.tuple) := by
  rw [mem_conflicts rank s sound.wired, mem_conflicts other u uSound.wired]
  have concurrent := concurrent_both rank other s u sound uSound one p c pHere pThere cHere cThere
  constructor
  · rintro ⟨⟨_, tuple⟩, apart, different⟩
    exact ⟨⟨cHere, tuple⟩, (concurrent tuple).mp apart, different⟩
  · rintro ⟨⟨_, tuple⟩, apart, different⟩
    exact ⟨⟨cThere, tuple⟩, (concurrent tuple).mpr apart, different⟩

end Both

abbrev Leads : World → World → Prop := Relation.ReflTransGen (Step CausalSync)

theorem leads_reachable (strategies : SiteId → Strategy) (w later : World) (run : Reachable CausalSync strategies w)
    (leads : Leads w later) : Reachable CausalSync strategies later := by
  induction leads with
  | refl => exact run
  | tail _ step ih => exact ih.step _ _ step

theorem step_log (rule : SyncRule) (w next : World) (step : Step rule w next) (i : SiteId) :
    (w.site i).state.log <+: (next.site i).state.log := by
  cases step with
  | updatePolicy j target right effect p s doc ok =>
      obtain ⟨_, _, stepped, _⟩ := (update_policy_ok _ _ _ _ _ _ _ _).mp ok
      refine generate_each w j _ _ (fun i site => (w.site i).state.log <+: site.state.log) ?_ (fun _ _ => List.prefix_rfl) i
      rw [stepped, effect_policy_log, allocated_log]
      exact List.prefix_append _ _
  | updateDocument j edit d s doc ok =>
      obtain ⟨_, _, stepped, _⟩ := (update_document_ok _ _ _ _ _ _).mp ok
      refine generate_each w j _ _ (fun i site => (w.site i).state.log <+: site.state.log) ?_ (fun _ _ => List.prefix_rfl) i
      rw [stepped, effect_document_log, allocated_log]
      exact List.prefix_append _ _
  | sync j k merged delivered =>
      exact put_each w j ⟨(w.site j).state, merged⟩ (fun i site => (w.site i).state.log <+: site.state.log)
        List.prefix_rfl (fun _ _ => List.prefix_rfl) i
  | rebuild j =>
      refine put_each w j _ (fun i site => (w.site i).state.log <+: site.state.log) ?_ (fun _ _ => List.prefix_rfl) i
      obtain ⟨v, state⟩ := rebuild_state (w.site j).state (w.site j).doc
      rw [state, with_valid_log, integrated_log]
      exact List.prefix_append _ _

theorem leads_log (w later : World) (leads : Leads w later) (i : SiteId) :
    (w.site i).state.log <+: (later.site i).state.log := by
  induction leads with
  | refl => exact List.prefix_rfl
  | tail _ step ih => exact ih.trans (step_log CausalSync _ _ step i)

-- Where an op stands is settled when it is generated, for every site and all time.
theorem places_fixed (strategies : SiteId → Strategy) (w later : World) (run : Reachable CausalSync strategies w)
    (leads : Leads w later) (i j : SiteId) :
    (w.site i).state.log <+: (later.site i).state.log ∧
      ∀ p, .policy p ∈ (w.site i).state.log → .policy p ∈ (later.site j).state.log →
        ((later.site j).state.dagAt p.tuple).ancestors p.dot = ((w.site i).state.dagAt p.tuple).ancestors p.dot ∧
        ((later.site j).state.dagAt p.tuple).level p.dot = ((w.site i).state.dagAt p.tuple).level p.dot ∧
        ∀ c, .policy c ∈ (w.site i).state.log → .policy c ∈ (later.site j).state.log →
          (c ∈ conflicts (later.site j).state p ((later.site j).state.dagAt p.tuple) ↔
            c ∈ conflicts (w.site i).state p ((w.site i).state.dagAt p.tuple)) := by
  obtain ⟨rank, grounded⟩ := grounded_run strategies w run
  obtain ⟨other, after⟩ := grounded_run strategies later (leads_reachable strategies w later run leads)
  have kept := leads_log w later leads i
  have one : ∀ o ∈ (w.site i).state.log, ∀ x ∈ (later.site j).state.log, o.dot = x.dot → o = x := by
    intro o oIn x xIn same
    exact same_dot_same_op later.history (history_distinct later after.toFaithful) o x
      (log_recorded later after.toFaithful i o (kept.subset oIn)) (log_recorded later after.toFaithful j x xIn) same
  have sound := grounded.sound i
  have uSound := after.sound j
  refine ⟨kept, fun p here there => ⟨ancestors_both rank other _ _ sound uSound one p here there,
    level_there rank other _ _ sound uSound one p here there, fun c cHere cThere => ?_⟩⟩
  exact conflicts_both rank other _ _ sound uSound one p c here there cHere cThere

theorem play_leads (actions : List Action) (w last : World) (done : w.play actions = some last) : Leads w last := by
  induction actions generalizing w with
  | nil =>
      obtain rfl := Option.some.inj done
      exact .refl
  | cons action rest ih =>
      obtain ⟨next, acted, played⟩ := Option.bind_eq_some_iff.mp done
      exact .head (act_step w next action acted) (ih next played)

def decided : List Action :=
  [.policy "A" "B" .read .deny, .policy "A" "B" .read .allow]

def joined : List Action :=
  [.policy "C" "B" .read .deny, .sync "B" "A" [⟨"A", 1⟩, ⟨"A", 2⟩], .sync "B" "C" [⟨"C", 1⟩, ⟨"A", 1⟩, ⟨"A", 2⟩],
    .rebuild "B"]

theorem decided_runs : (play .integrity decided).isSome = true := by decide +kernel

def decidedWorld : World := (play .integrity decided).get decided_runs

theorem joined_runs : (decidedWorld.play joined).isSome = true := by decide +kernel

def joinedWorld : World := (decidedWorld.play joined).get joined_runs

theorem joined_places : ((joinedWorld.site "B").state.dagAt ⟨"B", .read⟩).level ⟨"A", 2⟩ =
    ((decidedWorld.site "A").state.dagAt ⟨"B", .read⟩).level ⟨"A", 2⟩ :=
  ((places_fixed (fun _ => .integrity) decidedWorld joinedWorld (played .integrity decided decided_runs)
    (play_leads joined decidedWorld joinedWorld (Option.some_get joined_runs).symm) "A" "B").2
    ⟨⟨"A", 2⟩, "B", .read, .allow, [⟨"A", 1⟩], none, []⟩ (by decide +kernel) (by decide +kernel)).2.1

end Accure
