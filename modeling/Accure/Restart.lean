import Accure.Replication
import Accure.Unordered

set_option autoImplicit false

namespace Accure

open Peer

def World.receive (w : World) (i : SiteId) (merged : Doc) : World :=
  w.put i ⟨(rebuildFromAutomerge (w.site i).state merged).1, merged⟩

def World.Recovered (w : World) (i : SiteId) : Prop := ∀ o ∈ w.history, o.dot.site = i → o ∈ (w.site i).state.log

-- A server keeps all in memory, so one that is started again begins anew under
-- its old id. What it receives may be any lists in order of ops made so far, and
-- it edits again once it has recovered.
inductive RestartStep (strategies : SiteId → Strategy) : World → World → Prop where
  | update (w next : World) (o : Operation) (step : Step CausalSync w next) (made : next.history = w.history ++ [o])
      (recovered : w.Recovered o.dot.site) : RestartStep strategies w next
  | receive (w : World) (i : SiteId) (merged : Doc) (grown : GrownDoc w.history w.held merged)
      (kept : ∀ o ∈ (w.site i).doc.ops, o ∈ merged.ops) : RestartStep strategies w (w.receive i merged)
  | restart (w : World) (i : SiteId) : RestartStep strategies w (w.put i (Site.start i (strategies i)))

inductive RestartRun (strategies : SiteId → Strategy) : World → Prop where
  | init : RestartRun strategies (World.init strategies)
  | step (w next : World) (before : RestartRun strategies w) (step : RestartStep strategies w next) :
      RestartRun strategies next

def Counted (s : State) : Prop := Counts s.log s.me (s.nextN (s.me, .site))

section Counting

variable (ops : List Operation) (site : SiteId) (entry : Option Nat) (counts : Counts ops site entry)

include counts

theorem counts_folded (s : State) (here : s.nextN (site, .site) = entry) (rows : List Operation) :
    Counts (ops ++ rows) site ((rows.foldl State.integrate s).nextN (site, .site)) := by
  induction rows using List.reverseRecOn with
  | nil => rwa [List.append_nil, List.foldl_nil, here]
  | append_singleton init o ih =>
      rw [fold_concat, integrate_next, note_next, ← List.append_assoc]
      have next := counts_noted (ops ++ init) o site _ ih
      by_cases emitter : site = o.dot.site
      · rw [if_pos emitter, emitter] at next
        rwa [if_pos ⟨emitter, rfl⟩, emitter]
      · rw [if_neg emitter] at next
        rwa [if_neg fun both => emitter both.1]

theorem counts_bound (o : Operation) (member : o ∈ ops) (own : o.dot.site = site) : o.dot.n ≤ entry.getD 0 := by
  cases entry with
  | none => exact absurd own (counts o member)
  | some m => exact counts.2 o member own

theorem counts_reached (positive : 0 < entry.getD 0) : ∃ o ∈ ops, o.dot.site = site ∧ o.dot.n = entry.getD 0 := by
  cases entry with
  | none => exact absurd positive (Nat.lt_irrefl 0)
  | some m => exact counts.1

end Counting

structure Fit (rank : Dot → Nat) (strategy : Strategy) (history : List Operation) (held : Dot → List Dot) (i : SiteId)
    (site : Site) : Prop where
  me : site.state.me = i
  strategy : site.state.strategy = strategy
  grown : GrownDoc history held site.doc
  current : ∀ o, o ∈ site.state.log ↔ o ∈ site.doc.ops
  sound : Sound rank site.state
  counted : Counted site.state

theorem fit_counts (rank : Dot → Nat) (history : List Operation) (held : Dot → List Dot) (i : SiteId) (strategy : Strategy)
    (site : Site) (fit : Fit rank strategy history held i site) :
    Counts site.state.log i (site.state.nextN (site.state.me, .site)) := by
  have counted := fit.counted
  rw [Counted, fit.me] at counted
  rwa [fit.me]

theorem fit_start (rank : Dot → Nat) (strategy : Strategy) (history : List Operation) (held : Dot → List Dot) (i : SiteId) :
    Fit rank strategy history held i (Site.start i strategy) := by
  refine ⟨rfl, rfl, ⟨⟨List.nodup_nil, nofun, .nil, .nil⟩, nofun⟩, fun o => Iff.rfl, initial_sound rank i strategy, ?_⟩
  exact fun o member => absurd member List.not_mem_nil

-- The ghost world is one without the restarts: its sites keep what they had until
-- they have recovered.
structure Backed (rank : Dot → Nat) (strategies : SiteId → Strategy) (w ghost : World) : Prop where
  grounded : Grounded rank ghost
  history : ghost.history = w.history
  held : ghost.held = w.held
  prior : ∀ o ∈ w.history, ∀ x ∈ w.history, x.dot.site = o.dot.site → x.dot.n < o.dot.n → x.dot ∈ w.held o.dot
  fit : ∀ i, Fit rank (strategies i) w.history w.held i (w.site i)
  same : ∀ i, w.Recovered i → ghost.site i = w.site i

section Ghost

variable (rank : Dot → Nat) (ghost : World) (grounded : Grounded rank ghost) (i : SiteId)

include grounded

theorem numbers_made (n : Nat) :
    (∃ o ∈ ghost.history, o.dot = ⟨i, n⟩) ↔ 1 ≤ n ∧ n ≤ (ghost.site i).state.counter := by
  have numbered := grounded.numbered i
  have range : n ∈ List.range' 1 (ghost.site i).state.counter ↔ 1 ≤ n ∧ n ≤ (ghost.site i).state.counter := by
    rw [List.mem_range'_1]
    omega
  rw [← range, ← numbered, List.mem_map]
  constructor
  · intro made
    obtain ⟨o, member, dot⟩ := made
    refine ⟨o.dot, List.mem_filter.mpr ⟨List.mem_map_of_mem member, ?_⟩, ?_⟩
    · simp [dot]
    · rw [dot]
  · intro found
    obtain ⟨d, member, rfl⟩ := found
    obtain ⟨inside, own⟩ := List.mem_filter.mp member
    obtain ⟨o, made, rfl⟩ := List.mem_map.mp inside
    exact ⟨o, made, by rw [← of_decide_eq_true own]⟩

variable (strategy : Strategy) (site : Site) (fit : Fit rank strategy ghost.history ghost.held i site)

include fit

theorem fit_counter_le : site.state.counter ≤ (ghost.site i).state.counter := by
  have counted := fit_counts rank ghost.history ghost.held i strategy site fit
  cases Nat.eq_zero_or_pos site.state.counter with
  | inl zero =>
      rw [zero]
      exact Nat.zero_le _
  | inr positive =>
      obtain ⟨o, member, own, number⟩ := counts_reached _ _ _ counted positive
      have made := fit.grown.2 o ((fit.current o).mp member)
      have dot : o.dot = ⟨i, site.state.counter⟩ := by
        rw [← own, State.counter, ← number]
      exact ((numbers_made rank ghost grounded i site.state.counter).mp ⟨o, made, dot⟩).2

theorem fit_counter (recovered : ∀ o ∈ ghost.history, o.dot.site = i → o ∈ site.state.log) :
    site.state.counter = (ghost.site i).state.counter := by
  have counted := fit_counts rank ghost.history ghost.held i strategy site fit
  apply Nat.le_antisymm (fit_counter_le rank ghost grounded i strategy site fit)
  cases Nat.eq_zero_or_pos (ghost.site i).state.counter with
  | inl zero =>
      rw [zero]
      exact Nat.zero_le _
  | inr positive =>
      obtain ⟨o, made, dot⟩ := (numbers_made rank ghost grounded i _).mpr ⟨positive, Nat.le_refl _⟩
      have own : o.dot.site = i := congrArg Dot.site dot
      have bound := counts_bound _ _ _ counted o (recovered o made own) own
      rwa [dot] at bound

-- A site that has recovered can stand in for what it was.
theorem fit_grounded (recovered : ∀ o ∈ ghost.history, o.dot.site = i → o ∈ site.state.log) :
    Grounded rank (ghost.put i site) := by
  have each := put_each ghost i site
  have counter := fit_counter rank ghost grounded i strategy site fit recovered
  have faithful : Faithful (ghost.put i site) := by
    constructor
    · exact each (fun j site => site.state.me = j) fit.me fun j _ => grounded.me j
    · exact each (fun _ site => ∀ o ∈ site.doc.ops, o ∈ ghost.history) fit.grown.2 fun j _ => grounded.recorded j
    · exact each (fun _ site => site.doc.dots.Nodup) fit.grown.1.once fun j _ => grounded.once j
    · exact each (fun _ site => ∀ o ∈ site.state.log, o ∈ site.doc.ops) (fun o => (fit.current o).mp)
        fun j _ => grounded.logged j
    · exact each (fun _ site => (site.state.log.map Operation.dot).Nodup) fit.sound.nodup fun j _ => grounded.distinct j
    · intro o member
      have own := each (fun j site => o.dot.site = j → o ∈ site.state.log) (recovered o member)
        fun j _ emitter => emitter ▸ grounded.own o member
      exact own o.dot.site rfl
    · refine each (fun j site => ((ghost.history.map Operation.dot).filter (fun d => d.site = j)).map Dot.n =
        List.range' 1 site.state.counter) ?_ fun j _ => grounded.numbered j
      rw [counter]
      exact grounded.numbered i
  refine ⟨faithful, ?_, ?_, grounded.deps, grounded.rankRoot, grounded.rankDep, ?_⟩
  · exact each (fun _ site => ∀ o ∈ site.doc.ops, ∀ d ∈ ghost.held o.dot, d ∈ site.doc.dots) fit.grown.1.closed
      fun j _ => grounded.closed j
  · exact each (fun _ site => site.doc.policyLog.Pairwise (fun earlier later => later.dot ∉ ghost.held earlier.dot))
      fit.grown.1.policyOrder fun j _ => grounded.ordered j
  · exact each (fun _ site => Sound rank site.state) fit.sound fun j _ => grounded.sound j

end Ghost

section Moves

variable (rank : Dot → Nat) (strategies : SiteId → Strategy) (w ghost : World)
variable (backed : Backed rank strategies w ghost)

include backed

theorem backed_put (i : SiteId) (site : Site) (fit : Fit rank (strategies i) w.history w.held i site) :
    ∃ next, Backed rank strategies (w.put i site) next := by
  have fits := put_each w i site (fun j site => Fit rank (strategies j) w.history w.held j site) fit fun j _ => backed.fit j
  have elsewhere : ∀ j, j ≠ i → (w.put i site).Recovered j → ghost.site j = (w.put i site).site j := by
    intro j apart recovered
    rw [World.Recovered, world_put_elsewhere w i j site apart] at recovered
    rw [world_put_elsewhere w i j site apart]
    exact backed.same j recovered
  by_cases recovered : ∀ o ∈ w.history, o.dot.site = i → o ∈ site.state.log
  · have fitGhost : Fit rank (strategies i) ghost.history ghost.held i site := by rwa [backed.history, backed.held]
    have grounded := fit_grounded rank ghost backed.grounded i (strategies i) site fitGhost (by rwa [backed.history])
    refine ⟨ghost.put i site, grounded, backed.history, backed.held, backed.prior, fits, ?_⟩
    intro j there
    by_cases here : j = i
    · rw [here, world_put_here, world_put_here]
    · rw [world_put_elsewhere ghost i j site here]
      exact elsewhere j here there
  · refine ⟨ghost, backed.grounded, backed.history, backed.held, backed.prior, fits, ?_⟩
    intro j there
    by_cases here : j = i
    · rw [World.Recovered, here, world_put_here] at there
      exact absurd there recovered
    · exact elsewhere j here there

theorem fit_receive (i : SiteId) (merged : Doc) (grown : GrownDoc w.history w.held merged)
    (kept : ∀ o ∈ (w.site i).doc.ops, o ∈ merged.ops) : Fit rank (strategies i) w.history w.held i
      ⟨(rebuildFromAutomerge (w.site i).state merged).1, merged⟩ := by
  have fit := backed.fit i
  have logged : ∀ o ∈ (w.site i).state.log, o ∈ merged.ops := fun o member => kept o ((fit.current o).mp member)
  have perm := rebuild_perm (w.site i).state merged grown.1.once logged fit.sound.nodup
  have replays : Replayable rank (w.site i).state merged := by
    apply replayable_doc rank ghost backed.grounded merged _ grown.1.once _ _ _ fit.sound logged
    · rw [backed.history]
      exact grown.2
    · rw [backed.held]
      exact grown.1.closed
    · rw [backed.held]
      exact grown.1.policyOrder
  have sound := rebuild_sound rank _ _ replays
  have state := rebuild_integrated rank _ _ replays
  refine ⟨?_, ?_, grown, fun o => perm.mem_iff, sound, ?_⟩
  · rw [state]
    exact (integrated_me _ _).trans fit.me
  · rw [state]
    exact (integrated_strategy _ _).trans fit.strategy
  · rw [Counted, state, integrated_me, integrated_log, integrated_eq]
    exact counts_folded _ _ _ fit.counted _ rfl _

end Moves

def Site.made (site : Site) (o : Operation) : Site := ⟨site.state.allocated.integrate o, site.doc.append o⟩

theorem step_made (w next : World) (o : Operation) (step : Step CausalSync w next) (made : next.history = w.history ++ [o]) :
    ∃ i, o.dot = ⟨(w.site i).state.me, (w.site i).state.counter + 1⟩ ∧ next = w.generate i o ((w.site i).made o) ∧
      ∀ world : World, world.site i = w.site i → Step CausalSync world (world.generate i o ((world.site i).made o)) := by
  cases step with
  | updatePolicy i target right effect p s doc ok =>
      have same : Operation.policy p = o := by simpa [World.generate] using made
      obtain ⟨_, op, state, lists⟩ := (update_policy_ok _ _ _ _ _ _ _ _).mp ok
      subst same state lists
      refine ⟨i, congrArg PolicyOp.dot op, rfl, ?_⟩
      intro world alike
      exact .updatePolicy world i target right effect p _ _ (by rwa [alike])
  | updateDocument i edit d s doc ok =>
      have same : Operation.document d = o := by simpa [World.generate] using made
      obtain ⟨_, op, state, lists⟩ := (update_document_ok _ _ _ _ _ _).mp ok
      subst same state lists
      refine ⟨i, congrArg DocOp.dot op, rfl, ?_⟩
      intro world alike
      exact .updateDocument world i edit d _ _ (by rwa [alike])
  | sync i j merged sync => exact absurd (congrArg List.length made) (by simp [World.put])
  | rebuild i => exact absurd (congrArg List.length made) (by simp [World.put])

theorem made_counted (s : State) (o : Operation) (counted : Counted s) (dot : o.dot = ⟨s.me, s.counter + 1⟩) :
    Counted (s.allocated.integrate o) := by
  have number : (s.allocated.nextN (s.me, .site)).getD 0 = s.counter + 1 := allocated_counter s
  have noted := counts_noted s.log o s.me _ counted
  rw [Counted, integrate_log, integrate_me, allocated_log, allocated_me, integrate_next, note_next]
  rw [if_pos (congrArg Dot.site dot).symm] at noted
  rw [if_pos ⟨(congrArg Dot.site dot).symm, rfl⟩, congrArg Dot.site dot]
  have larger : max o.dot.n ((s.nextN (s.me, .site)).getD 0) = max o.dot.n ((s.allocated.nextN (s.me, .site)).getD 0) := by
    rw [number, dot, ← State.counter]
    dsimp only
    omega
  exact larger ▸ noted

section Update

variable (rank : Dot → Nat) (strategies : SiteId → Strategy) (w ghost : World)
variable (backed : Backed rank strategies w ghost) (i : SiteId) (recovered : w.Recovered i)
variable (o : Operation) (dot : o.dot = ⟨i, (w.site i).state.counter + 1⟩)

include backed recovered dot

theorem made_fresh : ∀ x ∈ w.history, x.dot ≠ o.dot := by
  intro x member
  have fresh := fresh_dot ghost backed.grounded.toFaithful i x (backed.history ▸ member)
  rwa [backed.same i recovered, ← dot] at fresh

theorem made_prior : ∀ x ∈ (w.generate i o ((w.site i).made o)).history,
    ∀ y ∈ (w.generate i o ((w.site i).made o)).history, y.dot.site = x.dot.site → y.dot.n < x.dot.n →
      y.dot ∈ (w.generate i o ((w.site i).made o)).held x.dot := by
  have fresh := made_fresh rank strategies w ghost backed i recovered o dot
  intro x xIn y yIn site number
  cases List.mem_append.mp xIn with
  | inr new =>
      rw [List.mem_singleton.mp new] at site number ⊢
      rw [held_new]
      cases List.mem_append.mp yIn with
      | inr same => exact absurd (List.mem_singleton.mp same ▸ number) (Nat.lt_irrefl _)
      | inl yOld =>
          have own : y.dot.site = i := site.trans (congrArg Dot.site dot)
          exact List.mem_map_of_mem (((backed.fit i).current y).mp (recovered y yOld own))
  | inl xOld =>
      rw [held_old w i o fresh _ x xOld]
      cases List.mem_append.mp yIn with
      | inl yOld => exact backed.prior x xOld y yOld site number
      | inr new =>
          have bound := history_bound ghost backed.grounded.toFaithful x (backed.history ▸ xOld)
          have own : x.dot.site = i := by rw [← site, List.mem_singleton.mp new, dot]
          rw [own, backed.same i recovered] at bound
          rw [List.mem_singleton.mp new, dot] at number
          simp only at number
          omega

variable (other : Dot → Nat) (agree : ∀ x ∈ w.history, other x.dot = rank x.dot)

include agree

theorem made_fit (sound : Sound other ((w.site i).made o).state) (j : SiteId) :
    Fit other (strategies j) (w.history ++ [o]) (Function.update w.held o.dot (w.site i).doc.dots) j
      ((w.generate i o ((w.site i).made o)).site j) := by
  have fresh := made_fresh rank strategies w ghost backed i recovered o dot
  refine generate_each w i o _ (fun j site => Fit other (strategies j) (w.history ++ [o]) _ j site) ?_ ?_ j
  · have fit := backed.fit i
    refine ⟨?_, ?_, append_grown w.history w.held _ o fit.grown fresh, ?_, sound, ?_⟩
    · exact (integrate_me _ _).trans ((allocated_me _).trans fit.me)
    · exact (integrate_strategy _ _).trans ((allocated_strategy _).trans fit.strategy)
    · intro x
      rw [Site.made, integrate_log, allocated_log, List.mem_append, List.mem_singleton, fit.current]
      exact (mem_doc_append _ o x).symm
    · exact made_counted _ o fit.counted (by rw [dot, fit.me])
  · intro k _
    have fit := backed.fit k
    have grown : GrownDoc (w.history ++ [o]) (Function.update w.held o.dot (w.site i).doc.dots) (w.site k).doc :=
      ⟨in_order_elsewhere w.history w.held _ o _ fit.grown fresh, fun x member => List.mem_append_left _ (fit.grown.2 x member)⟩
    refine ⟨fit.me, fit.strategy, grown, fit.current, ?_, fit.counted⟩
    exact sound_rerank rank other _ fit.sound fun x member => agree x (fit.grown.2 x ((fit.current x).mp member))

end Update

theorem backed_update (rank : Dot → Nat) (strategies : SiteId → Strategy) (w ghost : World)
    (backed : Backed rank strategies w ghost) (next : World) (o : Operation) (step : Step CausalSync w next)
    (made : next.history = w.history ++ [o]) (recovered : w.Recovered o.dot.site) :
    ∃ other after, Backed other strategies next after := by
  obtain ⟨i, dot, rfl, steps⟩ := step_made w next o step made
  rw [(backed.fit i).me] at dot
  rw [congrArg Dot.site dot] at recovered
  have same := backed.same i recovered
  obtain ⟨other, agree, grounded⟩ := grounded_step rank ghost backed.grounded _ (steps ghost same)
  rw [backed.history] at agree
  have sound := grounded.sound i
  rw [generate_here, same] at sound
  have fits := made_fit rank strategies w ghost backed i recovered o dot other agree sound
  refine ⟨other, _, grounded, congrArg (· ++ [o]) backed.history, ?_,
    made_prior rank strategies w ghost backed i recovered o dot, fits, ?_⟩
  · simp only [World.generate, backed.held, same]
  · intro j there
    by_cases here : j = i
    · rw [here, generate_here, generate_here, same]
    · have elsewhere (world : World) (site : Site) : (world.generate i o site).site j = world.site j :=
        Function.update_of_ne here _ _
      rw [elsewhere, elsewhere]
      apply backed.same j
      intro x member own
      have logged := there x (List.mem_append_left _ member) own
      rwa [elsewhere] at logged

theorem backed_step (rank : Dot → Nat) (strategies : SiteId → Strategy) (w ghost next : World)
    (backed : Backed rank strategies w ghost) (step : RestartStep strategies w next) :
    ∃ other after, Backed other strategies next after := by
  cases step with
  | update _ o step made recovered => exact backed_update rank strategies w ghost backed next o step made recovered
  | receive i merged grown kept =>
      have fit := fit_receive rank strategies w ghost backed i merged grown kept
      exact ⟨rank, backed_put rank strategies w ghost backed i _ fit⟩
  | restart i => exact ⟨rank, backed_put rank strategies w ghost backed i _ (fit_start rank _ _ _ i)⟩

theorem backed_run (strategies : SiteId → Strategy) (w : World) (run : RestartRun strategies w) :
    ∃ rank ghost, Backed rank strategies w ghost := by
  induction run with
  | init =>
      have none_ : ∀ o, o ∉ (World.init strategies).history := fun o => List.not_mem_nil
      exact ⟨_, _, grounded_init strategies, rfl, rfl, fun o member => absurd member (none_ o),
        fun i => fit_start _ _ _ _ i, fun _ _ => rfl⟩
  | step w next _ step ih =>
      obtain ⟨rank, ghost, backed⟩ := ih
      exact backed_step rank strategies w ghost next backed step

theorem next_unused_iff (rank : Dot → Nat) (strategies : SiteId → Strategy) (w ghost : World)
    (backed : Backed rank strategies w ghost) (i : SiteId) :
    (∀ o ∈ w.history, o.dot ≠ ⟨i, (w.site i).state.counter + 1⟩) ↔ w.Recovered i := by
  have fit := backed.fit i
  have numbers := numbers_made rank ghost backed.grounded i
  rw [backed.history] at numbers
  constructor
  · intro unused o member own
    have dot : o.dot = ⟨i, o.dot.n⟩ := by rw [← own]
    have range := (numbers o.dot.n).mp ⟨o, member, dot⟩
    have below : (ghost.site i).state.counter ≤ (w.site i).state.counter := by
      by_contra above
      obtain ⟨x, made, same⟩ := (numbers ((w.site i).state.counter + 1)).mpr ⟨by omega, by omega⟩
      exact unused x made same
    have counted := fit_counts rank w.history w.held i _ _ fit
    obtain ⟨last, lastIn, lastOwn, lastNumber⟩ := counts_reached _ _ _ counted (by rw [← State.counter]; omega)
    rw [← State.counter] at lastNumber
    have lastMade := fit.grown.2 last ((fit.current last).mp lastIn)
    have distinct := history_distinct ghost backed.grounded.toFaithful
    rw [backed.history] at distinct
    cases Nat.eq_or_lt_of_le (show o.dot.n ≤ last.dot.n by omega) with
    | inl same =>
        have dots : last.dot = o.dot := by rw [dot, same, ← lastOwn]
        exact same_dot_same_op w.history distinct last o lastMade member dots ▸ lastIn
    | inr less =>
        have past := backed.prior last lastMade o member (own.trans lastOwn.symm) less
        have closed := fit.grown.1.closed last ((fit.current last).mp lastIn) o.dot past
        obtain ⟨x, inDoc, same⟩ := List.mem_map.mp closed
        have op := same_dot_same_op w.history distinct x o (fit.grown.2 x inDoc) member same
        exact (fit.current o).mpr (op ▸ inDoc)
  · intro recovered o member same
    have made := (numbers _).mp ⟨o, member, same⟩
    rw [backed.same i recovered] at made
    omega

-- Restarts are safe as long as a site that was started again first waits for its
-- own ops: no dot is used twice, and its next dot is new exactly if it has them all.
theorem restarts_exact (strategies : SiteId → Strategy) (w : World) (run : RestartRun strategies w) :
    (w.history.map Operation.dot).Nodup ∧
      (∀ i, (∀ o ∈ w.history, o.dot ≠ ⟨i, (w.site i).state.counter + 1⟩) ↔ w.Recovered i) ∧
        ∀ i j, strategies j = strategies i → (∀ o, o ∈ (w.site j).state.log ↔ o ∈ (w.site i).state.log) →
          (∀ t, ((w.site i).state.graph t).Undisputed) → Agree (w.site i).state (w.site j).state := by
  obtain ⟨rank, ghost, backed⟩ := backed_run strategies w run
  refine ⟨?_, next_unused_iff rank strategies w ghost backed, ?_⟩
  · rw [← backed.history]
    exact history_distinct ghost backed.grounded.toFaithful
  · intro i j strategy same undisputed
    have alike : (w.site j).state.strategy = (w.site i).state.strategy := by
      rw [(backed.fit j).strategy, (backed.fit i).strategy, strategy]
    exact sound_agree rank _ _ (backed.fit i).sound (backed.fit j).sound alike same undisputed

def wroteOp : DocOp := freshDocument ((World.init fun _ => .integrity).site "A").state (.insert 0 'a')

def wroteWorld : World := (World.init fun _ => .integrity).generate "A" (.document wroteOp)
  ⟨effectDocument ((World.init fun _ => .integrity).site "A").state.allocated wroteOp, newSharedDoc.append (.document wroteOp)⟩

theorem wrote_step : Step CausalSync (World.init fun _ => .integrity) wroteWorld :=
  .updateDocument _ "A" (.insert 0 'a') wroteOp _ _
    ((update_document_ok _ _ _ _ _ _).mpr ⟨by decide +kernel, rfl, rfl, rfl⟩)

def forgotten : World := wroteWorld.put "A" (Site.start "A" .integrity)

def wroteDoc : Doc := newSharedDoc.append (.document wroteOp)

def remembered : World := forgotten.receive "A" wroteDoc

theorem forgotten_run : RestartRun (fun _ => .integrity) forgotten := by
  have none_ : (World.init fun _ => .integrity).Recovered "A" := fun o member => absurd member List.not_mem_nil
  exact .step _ _ (.step _ _ .init (.update _ _ (.document wroteOp) wrote_step rfl none_)) (.restart _ "A")

theorem wrote_doc_grown : GrownDoc forgotten.history forgotten.held wroteDoc := by
  have past : forgotten.held wroteOp.dot = [] :=
    held_new (World.init fun _ => .integrity) "A" (.document wroteOp) ((World.init fun _ => .integrity).site "A")
  refine ⟨⟨List.nodup_singleton _, ?_, .nil, List.pairwise_singleton _ _⟩, fun o member => member⟩
  intro o member d before
  rw [List.mem_singleton.mp member] at before
  rw [dot_document, past] at before
  exact absurd before List.not_mem_nil

theorem restarted_dots : (∃ o ∈ forgotten.history, o.dot = ⟨"A", (forgotten.site "A").state.counter + 1⟩) ∧
    ∀ o ∈ remembered.history, o.dot ≠ ⟨"A", (remembered.site "A").state.counter + 1⟩ := by
  have remembers : RestartRun (fun _ => .integrity) remembered :=
    .step _ _ forgotten_run (.receive _ "A" wroteDoc wrote_doc_grown nofun)
  constructor
  · by_contra unused
    have recovered := ((restarts_exact _ forgotten forgotten_run).2.1 "A").mp fun o member same => unused ⟨o, member, same⟩
    exact absurd (recovered (.document wroteOp) (List.mem_singleton_self _) rfl) List.not_mem_nil
  · apply ((restarts_exact _ remembered remembers).2.1 "A").mpr
    intro o member _
    have received := rebuild_perm (Site.start "A" .integrity).state wroteDoc (List.nodup_singleton _) nofun List.nodup_nil
    exact received.mem_iff.mpr member

end Accure
