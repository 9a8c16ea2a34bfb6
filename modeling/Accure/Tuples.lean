import Accure.Commute
import Accure.Rendering

set_option autoImplicit false

namespace Accure

def onTuple (t : AccessTuple) : Operation → Bool
  | .policy p => p.tuple = t
  | .document _ => false

-- What the policy ops of one tuple make of a state that never gets another op.
def tupleRegister (strategy : Strategy) (t : AccessTuple) (log : List Operation) : State :=
  (log.filter (onTuple t)).foldl State.integrate ((State.new t.site strategy).bootstrapSelf)

section Register

variable (strategy : Strategy) (t : AccessTuple) (log : List Operation)

theorem register_log : (tupleRegister strategy t log).log = log.filter (onTuple t) := by
  rw [tupleRegister, fold_log]
  exact List.nil_append _

theorem register_strategy : (tupleRegister strategy t log).strategy = strategy := by
  rw [tupleRegister, fold_strategy]
  rfl

theorem mem_register_log (p : PolicyOp) :
    .policy p ∈ (tupleRegister strategy t log).log ↔ .policy p ∈ log ∧ p.tuple = t := by
  rw [register_log, List.mem_filter, onTuple, decide_eq_true_eq]

theorem register_here (p : PolicyOp) (here : p.tuple = t) :
    tupleRegister strategy t (log ++ [.policy p]) = effectPolicy (tupleRegister strategy t log) p := by
  have kept : [Operation.policy p].filter (onTuple t) = [.policy p] := by simp [onTuple, here]
  rw [tupleRegister, List.filter_append, kept, fold_concat]
  rfl

theorem register_elsewhere (o : Operation) (other : onTuple t o = false) :
    tupleRegister strategy t (log ++ [o]) = tupleRegister strategy t log := by
  have dropped : [o].filter (onTuple t) = [] := by simp [other]
  rw [tupleRegister, List.filter_append, dropped, List.append_nil]
  rfl

end Register

theorem graph_same (s u : State) (t : AccessTuple) (strategy : u.strategy = s.strategy) (dag : u.dagAt t = s.dagAt t)
    (policies : ∀ p, p.tuple = t → (.policy p ∈ u.log ↔ .policy p ∈ s.log)) : u.graph t = s.graph t := by
  have wins : (u.graph t).wins = (s.graph t).wins := by
    funext d
    apply propext
    constructor
    · rintro ⟨p, member, tuple, dot, favored⟩
      exact ⟨p, (policies p tuple).mp member, tuple, dot, strategy ▸ favored⟩
    · rintro ⟨p, member, tuple, dot, favored⟩
      exact ⟨p, (policies p tuple).mpr member, tuple, dot, strategy ▸ favored⟩
  rw [State.graph, State.graph, Conflict.Graph.mk.injEq]
  exact ⟨by rw [dag], by rw [dag], wins⟩

structure Separate (rank : Dot → Nat) (t : AccessTuple) (s : State) : Prop where
  sound : Sound rank (tupleRegister s.strategy t s.log)
  dag : (tupleRegister s.strategy t s.log).dagAt t = s.dagAt t
  flags : ∀ p, .policy p ∈ s.log → p.tuple = t → (tupleRegister s.strategy t s.log).valid p.dot = s.valid p.dot

theorem separate_rerank (rank other : Dot → Nat) (t : AccessTuple) (s : State) (separate : Separate rank t s)
    (agree : ∀ o ∈ s.log, other o.dot = rank o.dot) : Separate other t s := by
  refine ⟨sound_rerank rank other _ separate.sound ?_, separate.dag, separate.flags⟩
  intro o member
  rw [register_log] at member
  exact agree o (List.mem_of_mem_filter member)

theorem separate_allocated (rank : Dot → Nat) (t : AccessTuple) (s : State) (separate : Separate rank t s) :
    Separate rank t s.allocated := ⟨separate.sound, separate.dag, separate.flags⟩

theorem separate_start (rank : Dot → Nat) (t : AccessTuple) (me : SiteId) (strategy : Strategy) :
    Separate rank t ((State.new me strategy).bootstrapSelf) := by
  refine ⟨initial_sound rank t.site strategy, ?_, fun _ member => absurd member List.not_mem_nil⟩
  exact (bootstrap_dag t.site strategy t).trans (bootstrap_dag me strategy t).symm

section Step

variable (rank : Dot → Nat) (t : AccessTuple) (s : State) (separate : Separate rank t s)

include separate

theorem separate_document (d : DocOp) (apart : ∀ p, .policy p ∈ s.log → p.dot ≠ d.dot) :
    Separate rank t (effectDocument s d) := by
  have same : tupleRegister (effectDocument s d).strategy t (effectDocument s d).log =
      tupleRegister s.strategy t s.log := by
    rw [effect_document_log, effect_document_strategy]
    exact register_elsewhere s.strategy t s.log _ rfl
  refine ⟨same ▸ separate.sound, same ▸ separate.dag, ?_⟩
  intro p member tuple
  have old := (policy_logged s d p).mp member
  rw [same, separate.flags p old tuple]
  exact (Function.update_of_ne (apart p old) _ _).symm

variable (p : PolicyOp) (arrives : PolicyArrives rank s p) (sound : Sound rank s)

include arrives

omit separate in
theorem register_arrives (here : p.tuple = t) : PolicyArrives rank (tupleRegister s.strategy t s.log) p := by
  refine ⟨?_, ?_, arrives.rankRoot, arrives.rankDep⟩
  · intro o member
    rw [register_log] at member
    exact arrives.fresh o (List.mem_of_mem_filter member)
  · intro a dep
    obtain ⟨q, member, tuple, dot⟩ := arrives.deps a dep
    exact ⟨q, (mem_register_log _ t _ q).mpr ⟨member, tuple.trans here⟩, tuple, dot⟩

include sound

theorem separate_elsewhere (other : p.tuple ≠ t) : Separate rank t (effectPolicy s p) := by
  have same : tupleRegister (effectPolicy s p).strategy t (effectPolicy s p).log = tupleRegister s.strategy t s.log := by
    rw [effect_policy_log, effect_policy_strategy]
    exact register_elsewhere s.strategy t s.log _ (decide_eq_false other)
  refine ⟨same ▸ separate.sound, ?_, ?_⟩
  · rw [same, separate.dag, effect_dag_elsewhere s p t other.symm]
  · intro q member tuple
    rw [effect_policy_log, List.mem_append, List.mem_singleton] at member
    rcases member with old | new
    · rw [same, separate.flags q old tuple]
      exact (effect_keeps_policy rank s p sound.steady arrives.fits sound.toConsistent.linked q old
        (fun here => other (here.symm.trans tuple))).symm
    · exact absurd tuple (by rwa [Operation.policy.inj new])

-- Both sides decide the tuple's ops by one graph and one set of marks.
theorem register_after (here : p.tuple = t) (q : PolicyOp) (member : .policy q ∈ (admitPolicy s p).log)
    (tuple : q.tuple = t) : afterArrival (tupleRegister s.strategy t s.log) p q.dot = afterArrival s p q.dot := by
  have fits := arrives.fits
  have registerFits := (register_arrives rank t s p arrives here).fits
  have policies : ∀ r, r.tuple = t →
      (.policy r ∈ (admitPolicy (tupleRegister s.strategy t s.log) p).log ↔ .policy r ∈ (admitPolicy s p).log) := by
    intro r onTuple
    rw [mem_admit_log, mem_admit_log, mem_register_log]
    tauto
  have dag : (admitPolicy (tupleRegister s.strategy t s.log) p).dagAt p.tuple = (admitPolicy s p).dagAt p.tuple := by
    rw [admit_dag_here, admit_dag_here, here, separate.dag]
  have graph : (admitPolicy (tupleRegister s.strategy t s.log) p).graph p.tuple = (admitPolicy s p).graph p.tuple := by
    refine graph_same _ _ _ ?_ dag (fun r same => policies r (same.trans here))
    rw [admit_strategy, admit_strategy, register_strategy]
  have node : q.dot ∈ ((admitPolicy s p).dagAt p.tuple).nodes :=
    ((admit_wired rank s p sound.steady.toWired fits).nodes p.tuple q.dot).mpr ⟨q, member, tuple.trans here.symm, rfl⟩
  have marks : ∀ y ∈ ((admitPolicy s p).dagAt p.tuple).nodes,
      (tupleRegister s.strategy t s.log).Marked y ↔ s.Marked y := by
    intro y yNode
    obtain ⟨r, rIn, rTuple, rfl⟩ := ((admit_wired rank s p sound.steady.toWired fits).nodes p.tuple y).mp yNode
    rw [State.Marked, State.Marked, State.markedValid, State.markedValid]
    rcases (mem_admit_log s p r).mp rIn with old | rfl
    · rw [separate.flags r old (rTuple.trans here)]
    · rw [unmarked_of_absent _ separate.sound.domain r.dot registerFits.fresh,
        unmarked_of_absent s sound.domain r.dot fits.fresh]
  rw [Bool.eq_iff_iff, after_arrival_here _ p q.dot (dag ▸ node), after_arrival_here s p q.dot node, graph]
  apply Conflict.arrived_congr _ _ _ _ _ _ _ node
  · exact fun y edge => (((admitPolicy s p).dagAt p.tuple).endpoints y p.dot edge).1
  · exact marks

theorem separate_here (here : p.tuple = t) : Separate rank t (effectPolicy s p) := by
  have same : tupleRegister (effectPolicy s p).strategy t (effectPolicy s p).log =
      effectPolicy (tupleRegister s.strategy t s.log) p := by
    rw [effect_policy_log, effect_policy_strategy]
    exact register_here s.strategy t s.log p here
  have registerArrives := register_arrives rank t s p arrives here
  refine ⟨same ▸ effect_policy_sound rank _ p separate.sound registerArrives, ?_, ?_⟩
  · rw [same, effect_policy_dag, effect_policy_dag, ← here, admit_dag_here, admit_dag_here, here, separate.dag]
  · intro q member tuple
    rw [effect_policy_log, ← admit_log] at member
    have registered : .policy q ∈ (admitPolicy (tupleRegister s.strategy t s.log) p).log := by
      rw [mem_admit_log, mem_register_log]
      exact ((mem_admit_log s p q).mp member).imp_left (fun old => ⟨old, tuple⟩)
    rw [same, effect_policy_value rank _ p separate.sound.steady registerArrives.fits
        (admit_linked _ p separate.sound.toConsistent.linked) q registered,
      effect_policy_value rank s p sound.steady arrives.fits (admit_linked s p sound.toConsistent.linked) q member,
      register_after rank t s separate p arrives sound here q member tuple]

theorem separate_policy : Separate rank t (effectPolicy s p) := by
  by_cases here : p.tuple = t
  · exact separate_here rank t s separate p arrives sound here
  · exact separate_elsewhere rank t s separate p arrives sound here

end Step

theorem separate_policies (rank : Dot → Nat) (t : AccessTuple) (rows : List PolicyOp) (s : State)
    (separate : Separate rank t s)
    (arriving : ∀ before p after, rows = before ++ p :: after →
      Sound rank (before.foldl effectPolicy s) ∧ PolicyArrives rank (before.foldl effectPolicy s) p) :
    Separate rank t (rows.foldl effectPolicy s) := by
  induction rows using List.reverseRecOn with
  | nil => exact separate
  | append_singleton init p ih =>
      obtain ⟨sound, arrives⟩ := arriving init p [] rfl
      have before := ih (fun before q after split => arriving before q (after ++ [p]) (by simp [split]))
      rw [List.foldl_append]
      exact separate_policy rank t _ before p arrives sound

theorem separate_documents (rank : Dot → Nat) (t : AccessTuple) (rows : List DocOp) (s : State)
    (separate : Separate rank t s) (apart : ∀ d ∈ rows, ∀ p, .policy p ∈ s.log → p.dot ≠ d.dot) :
    Separate rank t (rows.foldl effectDocument s) := by
  induction rows generalizing s with
  | nil => exact separate
  | cons d rest ih =>
      refine ih _ (separate_document rank t s separate d (apart d List.mem_cons_self)) ?_
      intro e member p logged
      exact apart e (List.mem_cons_of_mem d member) p ((policy_logged s d p).mp logged)

theorem separate_rebuild (rank : Dot → Nat) (t : AccessTuple) (s : State) (doc : Doc)
    (replayable : Replayable rank s doc) (separate : Separate rank t s) :
    Separate rank t (rebuildFromAutomerge s doc).1 := by
  rw [rebuild_integrated rank s doc replayable, integrated]
  refine separate_documents rank t _ _
    (separate_policies rank t _ s separate (replay_policies rank s doc replayable).1) ?_
  intro d member p logged same
  have inDoc : Operation.document d ∈ doc.ops :=
    (document_mem_ops doc d).mpr ((mem_new_documents rank s doc replayable d).mp member).1
  have policyInDoc : Operation.policy p ∈ doc.ops := by
    rw [fold_policies_log, List.mem_append] at logged
    rcases logged with old | new
    · exact replayable.logged _ old
    · obtain ⟨q, qNew, equal⟩ := List.mem_map.mp new
      rw [← equal]
      exact (policy_mem_ops doc q).mpr ((mem_new_policies rank s doc replayable q).mp qNew).1
  exact Operation.noConfusion (same_dot_same_op doc.ops replayable.once _ _ policyInDoc inDoc same)

section Run

variable (rank : Dot → Nat) (w : World) (grounded : Grounded rank w) (t : AccessTuple)
variable (separate : ∀ i, Separate rank t (w.site i).state)

include grounded separate

theorem separate_step (next : World) (step : Step CausalSync w next) :
    ∃ other, Grounded other next ∧ ∀ i, Separate other t (next.site i).state := by
  have faithful := faithful_step CausalSync (fun _ _ _ _ sync => sync.toDelivered) w next grounded.toFaithful step
  cases step with
  | updatePolicy i target right effect p s doc ok =>
      obtain ⟨_, rfl, rfl, rfl⟩ := (update_policy_ok _ _ _ _ _ _ _ _).mp ok
      obtain ⟨other, agree, arrives, after⟩ := grounded_policy rank w grounded i target right effect faithful
      have agreeLog : ∀ j, ∀ o ∈ (w.site j).state.log, other o.dot = rank o.dot :=
        fun j o member => agree o (log_recorded w grounded.toFaithful j o member)
      have old := fun j => separate_rerank rank other t _ (separate j) (agreeLog j)
      refine ⟨other, after, generate_each w i _ _ (fun _ site => Separate other t site.state) ?_ (fun j _ => old j)⟩
      exact separate_policy other t _ (separate_allocated other t _ (old i)) _ arrives
        (sound_allocated other _ (sound_rerank rank other _ (grounded.sound i) (agreeLog i)))
  | updateDocument i edit d s doc ok =>
      obtain ⟨_, rfl, rfl, rfl⟩ := (update_document_ok _ _ _ _ _ _).mp ok
      obtain ⟨arrives, after⟩ := grounded_document rank w grounded i edit faithful
      refine ⟨rank, after, generate_each w i _ _ (fun _ site => Separate rank t site.state) ?_ (fun j _ => separate j)⟩
      exact separate_document rank t _ (separate_allocated rank t _ (separate i)) _
        (fun p member => arrives.fresh (.policy p) member)
  | sync i j merged sync =>
      exact ⟨rank, grounded_sync rank w grounded i j merged sync,
        put_each w i _ (fun _ site => Separate rank t site.state) (separate i) (fun j _ => separate j)⟩
  | rebuild i =>
      refine ⟨rank, grounded_rebuild rank w grounded i,
        put_each w i _ (fun _ site => Separate rank t site.state) ?_ (fun j _ => separate j)⟩
      exact separate_rebuild rank t _ _ (replayable rank w grounded i) (separate i)

end Run

theorem separate_run (strategies : SiteId → Strategy) (w : World) (run : Reachable CausalSync strategies w)
    (t : AccessTuple) : ∃ rank, Grounded rank w ∧ ∀ i, Separate rank t (w.site i).state := by
  refine reachable_invariant CausalSync _ (fun w => ∃ rank, Grounded rank w ∧ ∀ i, Separate rank t (w.site i).state)
    ⟨_, grounded_init strategies, fun i => separate_start _ t i (strategies i)⟩ ?_ w run
  rintro w next ⟨rank, grounded, separate⟩ step
  exact separate_step rank w grounded t separate next step

section Reading

variable (rank : Dot → Nat) (t : AccessTuple) (s : State) (sound : Sound rank s) (separate : Separate rank t s)

include sound separate

theorem register_marks (n : Dot) (node : n ∈ (s.dagAt t).nodes) :
    (tupleRegister s.strategy t s.log).markedValid n = s.markedValid n := by
  obtain ⟨p, member, tuple, rfl⟩ := (sound.nodes t n).mp node
  rw [State.markedValid, State.markedValid, separate.flags p member tuple]

theorem register_policy_op (n : Dot) (node : n ∈ (s.dagAt t).nodes) :
    (tupleRegister s.strategy t s.log).policyOp n = s.policyOp n := by
  obtain ⟨p, member, tuple, rfl⟩ := (sound.nodes t n).mp node
  rw [(policy_op_some_iff s sound.nodup p.dot p).mpr ⟨member, rfl⟩]
  exact (policy_op_some_iff _ separate.sound.nodup p.dot p).mpr ⟨(mem_register_log _ t _ p).mpr ⟨member, tuple⟩, rfl⟩

theorem register_eval : eval (tupleRegister s.strategy t s.log) t.site t.right = eval s t.site t.right := by
  rw [eval_eq, eval_eq, separate.dag]
  rw [deepest_same s _ _ _ (register_strategy s.strategy t s.log) (register_marks rank t s sound separate)
    (register_policy_op rank t s sound separate)]

theorem register_document (d : DocOp) (member : .document d ∈ s.log) (tuple : d.tuple = t) :
    s.valid d.dot = some (isValidDocument (tupleRegister s.strategy t s.log) d) := by
  subst tuple
  refine (sound.settled _ member).trans (congrArg some ?_)
  refine (is_valid_document_same s _ d (register_strategy _ _ _) separate.dag (register_marks rank _ s sound separate)
    (register_policy_op rank _ s sound separate) ?_).symm
  intro a dep
  obtain ⟨p, logged, tuple, rfl⟩ := sound.docDeps d member a dep
  exact separate.flags p logged tuple

end Reading

theorem run_document_flag (strategies : SiteId → Strategy) (w : World) (run : Reachable CausalSync strategies w)
    (i : SiteId) (d : DocOp) (member : .document d ∈ (w.site i).state.log) :
    (w.site i).state.valid d.dot = some (isValidDocument (tupleRegister (strategies i) d.tuple (w.site i).state.log) d) := by
  obtain ⟨rank, grounded, separate⟩ := separate_run strategies w run d.tuple
  rw [← strategies_run CausalSync strategies w run i]
  exact register_document rank d.tuple _ (grounded.sound i) (separate i) d member rfl

theorem tuples_separate (strategies : SiteId → Strategy) (w : World) (run : Reachable CausalSync strategies w)
    (i : SiteId) (t : AccessTuple) :
    (tupleRegister (strategies i) t (w.site i).state.log).dagAt t = (w.site i).state.dagAt t ∧
      (∀ p, .policy p ∈ (w.site i).state.log → p.tuple = t →
        (w.site i).state.valid p.dot = (tupleRegister (strategies i) t (w.site i).state.log).valid p.dot) ∧
      eval (w.site i).state t.site t.right = eval (tupleRegister (strategies i) t (w.site i).state.log) t.site t.right ∧
      ∀ d, .document d ∈ (w.site i).state.log → d.tuple = t →
        (w.site i).state.valid d.dot = some (isValidDocument (tupleRegister (strategies i) t (w.site i).state.log) d) := by
  obtain ⟨rank, grounded, separate⟩ := separate_run strategies w run t
  rw [← strategies_run CausalSync strategies w run i]
  exact ⟨(separate i).dag, fun p member tuple => ((separate i).flags p member tuple).symm,
    (register_eval rank t _ (grounded.sound i) (separate i)).symm,
    register_document rank t _ (grounded.sound i) (separate i)⟩

def interleaved : List Action :=
  [.document "B" (.insert 0 'b'), .policy "A" "B" .write .deny, .policy "A" "B" .admin .deny,
    .policy "A" "B" .write .allow, .sync "B" "A" [⟨"A", 1⟩, ⟨"A", 2⟩, ⟨"A", 3⟩, ⟨"B", 1⟩], .rebuild "B"]

theorem interleaved_runs : (play .integrity interleaved).isSome = true := by decide +kernel

def interleavedWorld : World := (play .integrity interleaved).get interleaved_runs

theorem interleaved_separates :
    eval (interleavedWorld.site "B").state "B" .write =
      eval (tupleRegister .integrity ⟨"B", .write⟩ (interleavedWorld.site "B").state.log) "B" .write :=
  (tuples_separate (fun _ => .integrity) interleavedWorld (played .integrity interleaved interleaved_runs) "B"
    ⟨"B", .write⟩).2.2.1

section Texts

variable (strategies others : SiteId → Strategy) (w u : World) (run : Reachable CausalSync strategies w)
variable (other : Reachable CausalSync others u) (i j : SiteId) (strategy : strategies i = others j)

include run other strategy

theorem same_writes_same_flag (d : DocOp) (member : .document d ∈ (w.site i).state.log)
    (there : .document d ∈ (u.site j).state.log)
    (writes : (w.site i).state.log.filter (onTuple d.tuple) = (u.site j).state.log.filter (onTuple d.tuple)) :
    (u.site j).state.valid d.dot = (w.site i).state.valid d.dot := by
  rw [run_document_flag strategies w run i d member, run_document_flag others u other j d there, tupleRegister,
    tupleRegister, writes, strategy]

theorem text_of_writes (docs : ∀ d, .document d ∈ (w.site i).state.log ↔ .document d ∈ (u.site j).state.log)
    (writes : ∀ d, .document d ∈ (w.site i).state.log →
      (w.site i).state.log.filter (onTuple d.tuple) = (u.site j).state.log.filter (onTuple d.tuple)) :
    currentText (w.site i).state = currentText (u.site j).state := by
  obtain ⟨_, grounded⟩ := grounded_run strategies w run
  obtain ⟨_, otherGrounded⟩ := grounded_run others u other
  apply render_text_congr _ _ _ _ (doc_dots_nodup _ (grounded.sound i).nodup)
    (doc_dots_nodup _ (otherGrounded.sound j).nodup)
  intro d
  rw [← docs d]
  refine and_congr_right fun member => ?_
  rw [same_writes_same_flag strategies others w u run other i j strategy d member ((docs d).mp member)
    (writes d member)]

end Texts

def demoted : List Action :=
  interleaved ++ [.policy "A" "B" .admin .allow, .policy "A" "B" .admin .deny,
    .sync "B" "A" [⟨"A", 1⟩, ⟨"A", 2⟩, ⟨"A", 3⟩, ⟨"A", 4⟩, ⟨"A", 5⟩, ⟨"B", 1⟩], .rebuild "B"]

theorem demoted_runs : (play .integrity demoted).isSome = true := by decide +kernel

def demotedWorld : World := (play .integrity demoted).get demoted_runs

theorem demoted_text :
    currentText (interleavedWorld.site "B").state = currentText (demotedWorld.site "B").state := by
  have docs : (interleavedWorld.site "B").state.log.filterMap Operation.asDocument =
      (demotedWorld.site "B").state.log.filterMap Operation.asDocument := by decide +kernel
  have listed : ∀ (log : List Operation) d, .document d ∈ log ↔ d ∈ log.filterMap Operation.asDocument := by
    intro log d
    simp
  refine text_of_writes (fun _ => .integrity) (fun _ => .integrity) interleavedWorld demotedWorld
    (played .integrity interleaved interleaved_runs) (played .integrity demoted demoted_runs) "B" "B" rfl ?_ ?_
  · intro d
    rw [listed, listed, docs]
  · intro d member
    have all : ∀ d ∈ (interleavedWorld.site "B").state.log.filterMap Operation.asDocument,
        (interleavedWorld.site "B").state.log.filter (onTuple d.tuple) =
          (demotedWorld.site "B").state.log.filter (onTuple d.tuple) := by decide +kernel
    exact all d ((listed _ d).mp member)

end Accure
