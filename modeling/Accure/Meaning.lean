import Accure.Convergence
import Accure.Knowledge
import Accure.Library.Verdict

set_option autoImplicit false

namespace Accure

def opGraph (strategy : Strategy) (ops : Set Operation) (t : AccessTuple) : Conflict.Graph Dot where
  ops := {d | ∃ p, .policy p ∈ ops ∧ p.tuple = t ∧ p.dot = d}
  dep a b := ∃ p, .policy p ∈ ops ∧ p.tuple = t ∧ p.dot = b ∧ a ∈ p.deps
  wins d := ∃ p, .policy p ∈ ops ∧ p.tuple = t ∧ p.dot = d ∧ strategy.favors p.effect = true

-- A judgement of the policy ops in a set that keeps the rule of every tuple.
structure Reading (strategy : Strategy) (ops : Set Operation) where
  accepted : Dot → Prop
  lawful : ∀ t, (opGraph strategy ops t).Settled accepted

def allowing (ops : Set Operation) (x : Dot) : Prop := ∃ p, .policy p ∈ ops ∧ p.dot = x ∧ p.effect = .allow

section Reading

variable {strategy : Strategy} {ops : Set Operation} (reading : Reading strategy ops)

def Reading.candidates (t : AccessTuple) (considers : PolicyOp → Bool) : Set Dot :=
  {x | ∃ p, .policy p ∈ ops ∧ p.tuple = t ∧ p.dot = x ∧ reading.accepted x ∧ considers p = true}

def Reading.Holds (t : AccessTuple) : Prop :=
  (opGraph strategy ops t).Grants (reading.candidates t (fun _ => true)) (allowing ops)

def Reading.Shown (d : DocOp) : Prop :=
  .document d ∈ ops ∧ (∀ a ∈ d.deps, reading.accepted a) ∧
    (opGraph strategy ops d.tuple).Grants (reading.candidates d.tuple (fun p => covers p d.dot)) (allowing ops)

def Reading.IsText (text : String) : Prop :=
  ∃ docs : List DocOp, docs.Pairwise (fun a b => a.dot < b.dot) ∧ (∀ d, d ∈ docs ↔ reading.Shown d) ∧
    text = String.ofList (docs.foldl (fun text d => applyEdit text d.edit) [])

end Reading

def State.ops (s : State) : Set Operation := {o | o ∈ s.log}

structure Shows (s : State) (reading : Reading s.strategy s.ops) : Prop where
  policies : ∀ p, .policy p ∈ s.log → (s.valid p.dot = some true ↔ reading.accepted p.dot)
  rights : ∀ t, eval s t.site t.right = true ↔ reading.Holds t
  documents : ∀ d, .document d ∈ s.log → (s.valid d.dot = some true ↔ reading.Shown d)
  text : reading.IsText (currentText s)

section Sound

variable (rank : Dot → Nat) (s : State) (sound : Sound rank s)

include sound

theorem state_op_graph (t : AccessTuple) : s.graph t = opGraph s.strategy s.ops t := by
  rw [State.graph, opGraph, Conflict.Graph.mk.injEq]
  refine ⟨?_, ?_, rfl⟩
  · exact Set.ext fun d => sound.nodes t d
  · exact funext fun a => funext fun b => propext (sound.parents t a b)

theorem op_graph_graded (t : AccessTuple) : (opGraph s.strategy s.ops t).Graded rank := by
  have unique : ∀ p q, .policy p ∈ s.log → .policy q ∈ s.log → p.dot = q.dot → p = q :=
    fun p q pIn qIn same => Operation.policy.inj (same_dot_same_op s.log sound.nodup _ _ pIn qIn same)
  refine ⟨?_, ?_, ?_⟩
  · rintro a _ ⟨p, member, tuple, rfl, dep⟩
    obtain ⟨q, qIn, same, dot⟩ := sound.deps p member a dep
    exact ⟨⟨q, qIn, same.trans tuple, dot⟩, ⟨p, member, tuple, rfl⟩⟩
  · rintro _ ⟨p, member, tuple, rfl⟩ free
    refine sound.rankRoot p member (List.eq_nil_iff_forall_not_mem.mpr ?_)
    exact fun a dep => free a ⟨p, member, tuple, rfl, dep⟩
  · rintro a _ ⟨p, member, _, rfl, dep⟩
    exact sound.rankDep p member a dep

theorem op_graph_finite (t : AccessTuple) : (opGraph s.strategy s.ops t).ops.Finite :=
  state_op_graph rank s sound t ▸ graph_finite s t

theorem allowing_iff (p : PolicyOp) (member : .policy p ∈ s.log) : allowing s.ops p.dot ↔ p.effect = .allow := by
  constructor
  · rintro ⟨q, qIn, same, allow⟩
    rw [← Operation.policy.inj (same_dot_same_op s.log sound.nodup _ _ qIn member same)]
    exact allow
  · exact fun allow => ⟨p, member, rfl, allow⟩

theorem allowing_sides (t : AccessTuple) (x : Dot) (xIn : x ∈ (opGraph s.strategy s.ops t).ops) (y : Dot)
    (yIn : y ∈ (opGraph s.strategy s.ops t).ops) :
    (allowing s.ops x ↔ allowing s.ops y) ↔
      ((opGraph s.strategy s.ops t).wins x ↔ (opGraph s.strategy s.ops t).wins y) := by
  obtain ⟨p, pIn, pTuple, rfl⟩ := xIn
  obtain ⟨q, qIn, qTuple, rfl⟩ := yIn
  rw [allowing_iff rank s sound p pIn, allowing_iff rank s sound q qIn, ← state_op_graph rank s sound t,
    wins_of_tuple rank s sound t p pIn pTuple, wins_of_tuple rank s sound t q qIn qTuple]
  cases s.strategy <;> cases p.effect <;> cases q.effect <;> decide

def State.reading : Reading s.strategy s.ops where
  accepted := s.Marked
  lawful t := state_op_graph rank s sound t ▸ graph_settled rank s sound.steady t

variable (t : AccessTuple) (considers : PolicyOp → Bool)

theorem reading_candidates_iff (p : PolicyOp) (member : .policy p ∈ s.log) :
    p.dot ∈ (State.reading rank s sound).candidates t considers ↔ Candidate s t considers p := by
  constructor
  · rintro ⟨q, qIn, tuple, same, accepted, considered⟩
    obtain rfl := Operation.policy.inj (same_dot_same_op s.log sound.nodup _ _ qIn member same)
    exact ⟨qIn, tuple, accepted, considered⟩
  · exact fun candidate => ⟨p, member, candidate.tuple, rfl, candidate.valid, candidate.considered⟩

theorem deepest_grants : allowedBy (deepest s (s.dagAt t) considers) = true ↔
    (opGraph s.strategy s.ops t).Grants ((State.reading rank s sound).candidates t considers) (allowing s.ops) := by
  have inside : ∀ x ∈ (State.reading rank s sound).candidates t considers, x ∈ (opGraph s.strategy s.ops t).ops := by
    rintro _ ⟨p, member, tuple, rfl, _⟩
    exact ⟨p, member, tuple, rfl⟩
  cases chosen : deepest s (s.dagAt t) considers with
  | none =>
      refine ⟨fun _ x deepest => ?_, fun _ => rfl⟩
      obtain ⟨p, member, tuple, rfl, accepted, considered⟩ := deepest.1
      exact absurd ⟨member, tuple, accepted, considered⟩
        (deepest_none rank s sound.toConsistent t considers chosen p)
  | some best =>
      obtain ⟨lvl, p⟩ := best
      obtain ⟨candidate, highest, _⟩ := deepest_chosen rank s sound.toConsistent t considers lvl p chosen
      have graded := op_graph_graded rank s sound t
      have top : (opGraph s.strategy s.ops t).Deepest ((State.reading rank s sound).candidates t considers) p.dot := by
        rw [Conflict.deepest_rank _ rank graded _ inside]
        refine ⟨(reading_candidates_iff rank s sound t considers p candidate.logged).mpr candidate, ?_⟩
        rintro _ ⟨q, member, tuple, rfl, accepted, considered⟩
        exact highest q ⟨member, tuple, accepted, considered⟩
      rw [Conflict.grants_deepest _ rank graded _ inside _ ((State.reading rank s sound).lawful t) ?_ _
        (allowing_sides rank s sound t) p.dot top, allowing_iff rank s sound p candidate.logged, allowedBy,
        decide_eq_true_eq]
      rintro _ ⟨_, _, _, _, accepted, _⟩
      exact accepted

omit t considers in
theorem reading_shown (d : DocOp) (member : .document d ∈ s.log) :
    s.valid d.dot = some true ↔ (State.reading rank s sound).Shown d := by
  have settled := sound.settled _ member
  rw [dot_document, isValid, is_valid_document_eq] at settled
  rw [settled, Option.some.injEq, Bool.and_eq_true, deepest_grants rank s sound d.tuple,
    deps_valid_iff rank s sound d member, Reading.Shown]
  have accepted : (∀ a ∈ d.deps, s.valid a = some true) ↔ ∀ a ∈ d.deps, s.Marked a := by
    refine forall₂_congr fun a dep => ?_
    obtain ⟨q, qIn, _, rfl⟩ := sound.docDeps d member a dep
    rw [settled_value rank s sound.steady q qIn, Option.some.injEq, State.Marked]
  rw [accepted]
  exact ⟨fun both => ⟨member, both.2, both.1⟩, fun all => ⟨all.2.2, all.2.1⟩⟩

omit t considers in
theorem own_reading : Shows s (State.reading rank s sound) := by
  refine ⟨?_, ?_, reading_shown rank s sound, ?_⟩
  · intro p member
    rw [settled_value rank s sound.steady p member, Option.some.injEq]
    rfl
  · intro t
    rw [eval_eq]
    exact deepest_grants rank s sound t (fun _ => true)
  · have nodup := doc_dots_nodup _ sound.nodup
    refine ⟨shownDocs s.log s.valid, ?_, ?_, render_text_eq s.log s.valid⟩
    · refine ((shown_docs_sorted s.log s.valid).and (shown_docs_nodup s.log nodup s.valid)).imp_of_mem ?_
      rintro a b aIn bIn ⟨le, different⟩
      have aLogged := ((mem_shown_docs s.log s.valid a).mp aIn).1
      have bLogged := ((mem_shown_docs s.log s.valid b).mp bIn).1
      exact lt_of_le_of_ne le (fun same => different (same_dot_same_doc s.log nodup a b aLogged bLogged same))
    · intro d
      rw [mem_shown_docs]
      constructor
      · rintro ⟨member, valid⟩
        exact (reading_shown rank s sound d member).mp valid
      · intro shown
        exact ⟨shown.1, (reading_shown rank s sound d shown.1).mpr shown⟩

variable (other : Reading s.strategy s.ops) (t : AccessTuple)
variable (same : ∀ p, .policy p ∈ s.log → (s.Marked p.dot ↔ other.accepted p.dot))

include same

omit sound in
theorem same_candidates (considers : PolicyOp → Bool) :
    other.candidates t considers = {x | ∃ p, .policy p ∈ s.log ∧ p.tuple = t ∧ p.dot = x ∧ s.Marked x ∧ considers p = true} := by
  ext x
  constructor
  · rintro ⟨p, member, tuple, rfl, accepted, considered⟩
    exact ⟨p, member, tuple, rfl, (same p member).mpr accepted, considered⟩
  · rintro ⟨p, member, tuple, rfl, marked, considered⟩
    exact ⟨p, member, tuple, rfl, (same p member).mp marked, considered⟩

theorem same_reading : Shows s other := by
  have own := own_reading rank s sound
  have candidates : ∀ t considers, other.candidates t considers =
      (State.reading rank s sound).candidates t considers := fun t considers =>
    (same_candidates s other t same considers).trans rfl
  have shown : ∀ d, other.Shown d ↔ (State.reading rank s sound).Shown d := by
    intro d
    rw [Reading.Shown, Reading.Shown, candidates]
    refine and_congr_right fun member => and_congr_left fun _ => forall₂_congr fun a dep => ?_
    obtain ⟨q, qIn, _, rfl⟩ := sound.docDeps d member a dep
    exact (same q qIn).symm
  refine ⟨fun p member => (own.policies p member).trans (same p member), ?_, ?_, ?_⟩
  · intro t
    rw [own.rights t, Reading.Holds, Reading.Holds, candidates]
  · exact fun d member => (own.documents d member).trans (shown d).symm
  · obtain ⟨docs, sorted, members, text⟩ := own.text
    exact ⟨docs, sorted, fun d => (members d).trans (shown d).symm, text⟩

end Sound

theorem undisputed_reading (rank : Dot → Nat) (s : State) (sound : Sound rank s)
    (undisputed : ∀ t, (opGraph s.strategy s.ops t).Undisputed) (other : Reading s.strategy s.ops) : Shows s other := by
  refine same_reading rank s sound other (fun p member => ?_)
  have ranked := Conflict.graded_ranked _ rank (op_graph_graded rank s sound p.tuple)
  exact Conflict.settled_unique _ rank ranked (op_graph_finite rank s sound p.tuple) (undisputed p.tuple) _ _
    ((State.reading rank s sound).lawful p.tuple) (other.lawful p.tuple) (rank p.dot + 1) p.dot ⟨p, member, rfl, rfl⟩
    (Nat.lt_succ_self _)

-- A site shows its ops under a reading of them; where nothing is disputed the ops
-- have one reading only, and that is what the site shows.
theorem site_reads_ops (strategies : SiteId → Strategy) (w : World) (run : Reachable CausalSync strategies w)
    (i : SiteId) :
    (∃ reading, Shows (w.site i).state reading) ∧
      ((∀ t, (opGraph (w.site i).state.strategy (w.site i).state.ops t).Undisputed) →
        ∀ reading, Shows (w.site i).state reading) := by
  obtain ⟨rank, grounded⟩ := grounded_run strategies w run
  exact ⟨⟨_, own_reading rank _ (grounded.sound i)⟩, undisputed_reading rank _ (grounded.sound i)⟩

theorem contested_reads : ∃ reading, Shows (contested.site "A").state reading ∧
    ∀ other, Shows (contested.site "A").state other := by
  obtain ⟨⟨reading, reads⟩, every⟩ := site_reads_ops (fun _ => .integrity) contested
    (played .integrity contest contest_runs) "A"
  refine ⟨reading, reads, every fun t => Conflict.lone_winner_undisputed _ ⟨"A", 2⟩ ?_⟩
  rintro d ⟨p, member, _, rfl, favored⟩
  have strategy : (contested.site "A").state.strategy = .integrity := by decide +kernel
  have one : ∀ p ∈ (contested.site "A").state.policies, Strategy.integrity.favors p.effect = true → p.dot = ⟨"A", 2⟩ := by
    decide +kernel
  rw [strategy] at favored
  exact one p ((mem_state_policies _ p).mpr member) favored

end Accure
