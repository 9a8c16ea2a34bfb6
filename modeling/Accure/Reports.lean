import Accure.Confined
import Accure.Generated

set_option autoImplicit false

namespace Accure

def Trace.verdict (d : Dot) : Trace → Option Bool
  | .validity a valid => if a = d then some valid else none
  | _ => none

def lastVerdict (traces : List Trace) (d : Dot) : Option Bool := (traces.filterMap (Trace.verdict d)).getLast?

-- The traces account for all that has become of the ops of the log.
structure Reported (s next : State) (traces : List Trace) : Prop where
  flags : ∀ o ∈ s.log, next.valid o.dot = (lastVerdict traces o.dot).or (s.valid o.dot)
  compensated : ∀ d, .document d ∈ s.log → next.valid d.dot ≠ s.valid d.dot → ∃ v, next.valid d.dot = some v ∧
    .compensation (d.dot.display ++ " → " ++ (if v then "redo" else "undo")) ∈ traces

def AcceptedAt (u : State) (p : PolicyOp) : Prop := isValid (admitPolicy u p) (.policy p) = true

instance (u : State) (p : PolicyOp) : Decidable (AcceptedAt u p) :=
  inferInstanceAs (Decidable (isValid (admitPolicy u p) (.policy p) = true))

-- An accepted op of the winning effect leaves q alone when it knows every op of
-- the losing effect that q is or rests on.
def Spares (u : State) (p q : PolicyOp) : Prop :=
  q.tuple = p.tuple → u.strategy.favors p.effect = true → AcceptedAt u p →
    ∀ r ∈ u.policies, r.tuple = p.tuple → u.strategy.favors r.effect = false →
      r.dot = q.dot ∨ r.dot ∈ (u.dagAt p.tuple).ancestors q.dot →
        r.dot ∈ ((admitPolicy u p).dagAt p.tuple).ancestors p.dot

def Lasts (q : PolicyOp) : State → List PolicyOp → Prop
  | _, [] => True
  | u, p :: rest => Spares u p q ∧ Lasts q (effectPolicy u p) rest

def Stands (s : State) (before : List PolicyOp) (p : PolicyOp) (after : List PolicyOp) : Prop :=
  AcceptedAt (before.foldl effectPolicy s) p ∧ Lasts p (effectPolicy (before.foldl effectPolicy s) p) after

-- The last of the received ops that cover the edit and stand.
structure Overrides (s : State) (d : DocOp) (before : List PolicyOp) (p : PolicyOp) (after : List PolicyOp) : Prop where
  tuple : p.tuple = d.tuple
  covers : covers p d.dot = true
  stands : Stands s before p after
  last : ∀ mid q rest, after = mid ++ q :: rest → q.tuple = d.tuple → Accure.covers q d.dot = true →
    ¬ Stands s (before ++ p :: mid) q rest

structure Unmoved (s : State) (rows : List PolicyOp) : Prop where
  policies : ∀ q ∈ s.policies, s.markedValid q.dot = true → Lasts q s rows
  documents : ∀ d, .document d ∈ s.log → depsAccepted s d = true → ∀ before p after, rows = before ++ p :: after →
    Overrides s d before p after → s.valid d.dot = some (decide (p.effect = .allow))

section Arrival

variable (rank : Dot → Nat) (s : State) (p : PolicyOp) (sound : Sound rank s) (arrives : PolicyArrives rank s p)

include sound arrives

theorem accepted_at_iff : AcceptedAt s p ↔ ((admitPolicy s p).graph p.tuple).Accepted s.Marked p.dot :=
  is_valid_policy_op rank _ (admit_wired rank s p sound.wired arrives.fits) p (by simp)

theorem arrival_accepted_at : (effectPolicy s p).markedValid p.dot = true ↔ AcceptedAt s p := by
  have node := arrival_node rank s p sound arrives p (Or.inr rfl) rfl
  rw [arrival_marked rank s p sound arrives p (Or.inr rfl), after_arrival_here s p p.dot node, Conflict.arrived_new,
    accepted_at_iff rank s p sound arrives]

theorem arrival_refused_keeps (refused : ¬ AcceptedAt s p) (q : PolicyOp) (member : .policy q ∈ s.log)
    (tuple : q.tuple = p.tuple) : (effectPolicy s p).markedValid q.dot = s.markedValid q.dot :=
  arrival_idle_keeps rank s p sound arrives
    (fun accepted _ => refused ((accepted_at_iff rank s p sound arrives).mpr accepted)) q member tuple

theorem arrival_spares_iff (q : PolicyOp) (member : .policy q ∈ s.log) :
    (effectPolicy s p).markedValid q.dot = true ↔ s.markedValid q.dot = true ∧ Spares s p q := by
  by_cases here : q.tuple = p.tuple
  · by_cases wins : s.strategy.favors p.effect = true
    · by_cases accepted : AcceptedAt s p
      · rw [arrival_winner_keeps rank s p sound arrives wins ((accepted_at_iff rank s p sound arrives).mp accepted) q
          member here, effect_policy_dag]
        refine and_congr Iff.rfl ?_
        constructor
        · intro kept _ _ _ r rIn tuple loses below
          rw [mem_ancestors] at below ⊢
          exact kept r ((mem_state_policies s r).mp rIn) tuple loses below
        · intro spares r rIn tuple loses below
          have known := spares here wins accepted r ((mem_state_policies s r).mpr rIn) tuple loses
          rw [mem_ancestors, mem_ancestors] at known
          exact known below
      · rw [arrival_refused_keeps rank s p sound arrives accepted q member here]
        exact ⟨fun valid => ⟨valid, fun _ _ taken => absurd taken accepted⟩, And.left⟩
    · rw [arrival_loser_keeps rank s p sound arrives (by simpa using wins) q member here]
      exact ⟨fun valid => ⟨valid, fun _ favored => absurd favored wins⟩, And.left⟩
  · have kept := effect_keeps_policy rank s p sound.steady arrives.fits sound.linked q member here
    rw [State.markedValid, kept]
    exact ⟨fun valid => ⟨valid, fun same => absurd same here⟩, And.left⟩

end Arrival

def Turns (rank : Dot → Nat) (s : State) (rows : List PolicyOp) : Prop :=
  ∀ before p after, rows = before ++ p :: after →
    Sound rank (before.foldl effectPolicy s) ∧ PolicyArrives rank (before.foldl effectPolicy s) p

theorem turns_tail (rank : Dot → Nat) (s : State) (head : PolicyOp) (tail : List PolicyOp)
    (turns : Turns rank s (head :: tail)) : Turns rank (effectPolicy s head) tail := by
  intro before p after split
  exact turns (head :: before) p after (by rw [split, List.cons_append])

theorem lasts_iff (rank : Dot → Nat) (rows : List PolicyOp) (s : State) (turns : Turns rank s rows) (q : PolicyOp)
    (member : .policy q ∈ s.log) :
    (rows.foldl effectPolicy s).markedValid q.dot = true ↔ s.markedValid q.dot = true ∧ Lasts q s rows := by
  induction rows generalizing s with
  | nil => simp [Lasts]
  | cons head tail ih =>
      obtain ⟨sound, arrives⟩ := turns [] head tail rfl
      have rest := ih (effectPolicy s head) (turns_tail rank s head tail turns) (by simp [member])
      rw [List.foldl_cons, rest, arrival_spares_iff rank s head sound arrives q member, Lasts, and_assoc]

theorem stands_iff (rank : Dot → Nat) (rows : List PolicyOp) (s : State) (turns : Turns rank s rows)
    (before : List PolicyOp) (p : PolicyOp) (after : List PolicyOp) (split : rows = before ++ p :: after) :
    (rows.foldl effectPolicy s).markedValid p.dot = true ↔ Stands s before p after := by
  obtain ⟨sound, arrives⟩ := turns before p after split
  have rest : Turns rank (effectPolicy (before.foldl effectPolicy s) p) after := by
    intro front q back inner
    have turn := turns (before ++ p :: front) q back (by rw [split, inner, List.append_assoc, List.cons_append])
    rwa [List.foldl_append, List.foldl_cons] at turn
  have lasts := lasts_iff rank after _ rest p (by simp)
  rw [split, List.foldl_append, List.foldl_cons, lasts, arrival_accepted_at rank _ p sound arrives, Stands]

section Latest

variable (rank : Dot → Nat) (s : State) (sound : Sound rank s) (t : AccessTuple) (considers : PolicyOp → Bool)
variable (front back : List Operation) (p : PolicyOp) (split : s.log = front ++ .policy p :: back)

include sound split

theorem after_logged (d : Dot) (before : (s.dagAt t).Before p.dot d) : ∃ q, .policy q ∈ back ∧ q.dot = d := by
  have ordered := split ▸ sound.ordered
  rw [List.pairwise_append, List.pairwise_cons] at ordered
  have next : ∀ a b, (a = p.dot ∨ ∃ r, .policy r ∈ back ∧ r.dot = a) → a ∈ (s.dagAt t).parents b →
      ∃ q, .policy q ∈ back ∧ q.dot = b := by
    intro a b place edge
    obtain ⟨q, member, _, rfl, dep⟩ := (sound.parents t a b).mp edge
    have behind : ∃ o ∈ Operation.policy p :: back, o.dot = a := by
      rcases place with rfl | ⟨r, rIn, rfl⟩
      · exact ⟨.policy p, by simp, rfl⟩
      · exact ⟨.policy r, by simp [rIn], rfl⟩
    obtain ⟨o, oIn, rfl⟩ := behind
    rw [split, List.mem_append, List.mem_cons] at member
    rcases member with earlier | same | later
    · exact absurd dep (ordered.2.2 _ earlier o oIn q rfl)
    · cases same
      rcases List.mem_cons.mp oIn with rfl | later
      · have step := sound.rankDep p (by simp [split]) _ dep
        rw [dot_policy] at step
        omega
      · exact absurd dep (ordered.2.1.1 o later p rfl)
    · exact ⟨q, later, rfl⟩
  induction before with
  | single edge => exact next _ _ (Or.inl rfl) edge
  | tail _ edge ih => exact next _ _ (Or.inr ih) edge

-- The deepest of the valid ops decides, and it agrees with the latest of them.
theorem latest_decides (candidate : Candidate s t considers p)
    (latest : ∀ q, .policy q ∈ back → ¬ Candidate s t considers q) :
    allowedBy (deepest s (s.dagAt t) considers) = decide (p.effect = .allow) := by
  apply decided_by rank s sound.toConsistent t considers p candidate
  intro q other deeper
  by_contra opposed
  have pValid : Valid s t p := ⟨candidate.logged, candidate.tuple, candidate.valid⟩
  have qValid : Valid s t q := ⟨other.logged, other.tuple, other.valid⟩
  rcases opposites_ordered rank s sound t p q pValid qValid opposed with after | before
  · obtain ⟨r, behind, dot⟩ := after_logged rank s sound t front back p split q.dot after
    have inLog : .policy r ∈ s.log := by simp [split, behind]
    cases same_dot_same_op s.log sound.nodup (.policy r) (.policy q) inLog other.logged dot
    exact latest q behind other
  · have less := before_rank rank s sound t q.dot p.dot before
    omega

end Latest

theorem last_of_kind {α : Type} (rows : List α) (kind : α → Prop) : (∀ x ∈ rows, ¬ kind x) ∨
    ∃ front x back, rows = front ++ x :: back ∧ kind x ∧ ∀ y ∈ back, ¬ kind y := by
  induction rows with
  | nil => exact Or.inl (fun x member => absurd member List.not_mem_nil)
  | cons head tail ih =>
      rcases ih with none | ⟨front, x, back, rfl, found, last⟩
      · by_cases here : kind head
        · exact Or.inr ⟨[], head, tail, rfl, here, none⟩
        · refine Or.inl (fun x member => ?_)
          rcases List.mem_cons.mp member with rfl | later
          · exact here
          · exact none x later
      · exact Or.inr ⟨head :: front, x, back, rfl, found, last⟩

section Batch

variable (rank : Dot → Nat) (s : State) (sound : Sound rank s) (rows : List PolicyOp) (turns : Turns rank s rows)
variable (after : Sound rank (rows.foldl effectPolicy s))

include sound turns after

theorem batch_policy_iff (q : PolicyOp) (member : .policy q ∈ s.log) :
    (rows.foldl effectPolicy s).valid q.dot = s.valid q.dot ↔ (s.markedValid q.dot = true → Lasts q s rows) := by
  have lasts := lasts_iff rank rows s turns q member
  rw [settled_value rank s sound.steady q member,
    settled_value rank _ after.steady q (by rw [fold_policies_log]; simp [member]), Option.some.injEq, Bool.eq_iff_iff, lasts]
  constructor
  · exact fun both valid => (both.mpr valid).2
  · exact fun kept => ⟨And.left, fun valid => ⟨valid, kept valid⟩⟩

omit sound after in
theorem batch_candidate_iff (d : DocOp) (before : List PolicyOp) (p : PolicyOp) (behind : List PolicyOp)
    (split : rows = before ++ p :: behind) :
    Candidate (rows.foldl effectPolicy s) d.tuple (fun p => covers p d.dot) p ↔
      p.tuple = d.tuple ∧ covers p d.dot = true ∧ Stands s before p behind := by
  rw [← stands_iff rank rows s turns before p behind split]
  constructor
  · exact fun candidate => ⟨candidate.tuple, candidate.considered, candidate.valid⟩
  · rintro ⟨tuple, covered, valid⟩
    exact ⟨by rw [fold_policies_log]; simp [split], tuple, valid, covered⟩

omit sound in
theorem batch_override (d : DocOp) (before : List PolicyOp) (p : PolicyOp) (behind : List PolicyOp)
    (split : rows = before ++ p :: behind) (overrides : Overrides s d before p behind) :
    allowedBy (deepest (rows.foldl effectPolicy s) ((rows.foldl effectPolicy s).dagAt d.tuple) (fun p => covers p d.dot)) =
      decide (p.effect = .allow) := by
  have candidate := (batch_candidate_iff rank s rows turns d before p behind split).mpr
    ⟨overrides.tuple, overrides.covers, overrides.stands⟩
  refine latest_decides rank _ after d.tuple _ (s.log ++ before.map .policy) (behind.map .policy) p ?_ candidate ?_
  · rw [fold_policies_log, split, List.map_append, List.map_cons, List.append_assoc]
  · intro q member other
    obtain ⟨_, qIn, same⟩ := List.mem_map.mp member
    cases same
    obtain ⟨mid, rest, inner⟩ := List.append_of_mem qIn
    have whole : rows = (before ++ p :: mid) ++ q :: rest := by
      rw [split, inner, List.append_assoc, List.cons_append]
    have stands := (batch_candidate_iff rank s rows turns d _ q rest whole).mp other
    exact overrides.last mid q rest inner stands.1 stands.2.1 stands.2.2

variable (policies : ∀ q, .policy q ∈ s.log → (rows.foldl effectPolicy s).valid q.dot = s.valid q.dot)

include policies

omit turns sound after in
theorem batch_keeps_candidate (t : AccessTuple) (considers : PolicyOp → Bool) (q : PolicyOp) (member : .policy q ∈ s.log) :
    Candidate (rows.foldl effectPolicy s) t considers q ↔ Candidate s t considers q := by
  have marks : (rows.foldl effectPolicy s).Marked q.dot ↔ s.Marked q.dot := by
    rw [State.Marked, State.Marked, State.markedValid, State.markedValid, policies q member]
  constructor
  · exact fun candidate => ⟨member, candidate.tuple, marks.mp candidate.valid, candidate.considered⟩
  · exact fun candidate => ⟨by rw [fold_policies_log]; simp [member], candidate.tuple, marks.mpr candidate.valid,
      candidate.considered⟩

omit turns in
theorem batch_undisturbed (d : DocOp)
    (none : ∀ p ∈ rows, ¬ Candidate (rows.foldl effectPolicy s) d.tuple (fun p => covers p d.dot) p) :
    allowedBy (deepest (rows.foldl effectPolicy s) ((rows.foldl effectPolicy s).dagAt d.tuple) (fun p => covers p d.dot)) =
      allowedBy (deepest s (s.dagAt d.tuple) (fun p => covers p d.dot)) := by
  have keeps := batch_keeps_candidate s rows policies d.tuple (fun p => covers p d.dot)
  rcases last_of_kind s.log (fun o => ∃ q, o = .policy q ∧ Candidate s d.tuple (fun p => covers p d.dot) q) with
    nobody | ⟨front, o, back, split, ⟨p, rfl, candidate⟩, latest⟩
  · rw [undecided rank s sound.toConsistent, undecided rank _ after.toConsistent]
    · intro q candidate
      have place := candidate.logged
      rw [fold_policies_log, List.mem_append] at place
      rcases place with old | new
      · exact nobody _ old ⟨q, rfl, (keeps q old).mp candidate⟩
      · obtain ⟨_, row, same⟩ := List.mem_map.mp new
        cases same
        exact none q row candidate
    · exact fun q candidate => nobody _ candidate.logged ⟨q, rfl, candidate⟩
  · have member : .policy p ∈ s.log := by simp [split]
    rw [latest_decides rank s sound d.tuple _ front back p split candidate (fun q behind other => latest _ behind ⟨q, rfl, other⟩)]
    refine latest_decides rank _ after d.tuple _ front (back ++ rows.map .policy) p ?_ ((keeps p member).mpr candidate) ?_
    · rw [fold_policies_log, split, List.append_assoc, List.cons_append]
    · intro q place other
      rcases List.mem_append.mp place with old | new
      · exact latest _ old ⟨q, rfl, (keeps q (by simp [split, old])).mp other⟩
      · obtain ⟨_, row, same⟩ := List.mem_map.mp new
        cases same
        exact none q row other

theorem batch_document_iff (d : DocOp) (member : .document d ∈ s.log) :
    (rows.foldl effectPolicy s).valid d.dot = s.valid d.dot ↔ (depsAccepted s d = true → ∀ before p behind,
      rows = before ++ p :: behind → Overrides s d before p behind → s.valid d.dot = some (decide (p.effect = .allow))) := by
  have inside : .document d ∈ (rows.foldl effectPolicy s).log := by
    rw [fold_policies_log]
    simp [member]
  have deps : depsAccepted (rows.foldl effectPolicy s) d = depsAccepted s d := by
    apply deps_accepted_same s _ d
    intro a dep
    obtain ⟨q, qIn, _, rfl⟩ := sound.docDeps d member a dep
    exact policies q qIn
  have now : (rows.foldl effectPolicy s).valid d.dot = _ := after.settled (.document d) inside
  have old : s.valid d.dot = _ := sound.settled (.document d) member
  rw [isValid, is_valid_document_eq, deps] at now
  constructor
  · intro same accepted before p behind split overrides
    rw [← same, now, accepted, batch_override rank s rows turns after d before p behind split overrides, Bool.and_true]
  · intro kept
    by_cases accepted : depsAccepted s d = true
    · rcases last_of_kind rows (Candidate (rows.foldl effectPolicy s) d.tuple (fun p => covers p d.dot)) with
        none | ⟨before, p, behind, split, candidate, latest⟩
      · rw [now, old, isValid, is_valid_document_eq, batch_undisturbed rank s sound rows after policies d none]
      · have standing := (batch_candidate_iff rank s rows turns d before p behind split).mp candidate
        have overrides : Overrides s d before p behind := by
          refine ⟨standing.1, standing.2.1, standing.2.2, ?_⟩
          intro mid q rest inner tuple covered stands
          have whole : rows = (before ++ p :: mid) ++ q :: rest := by
            rw [split, inner, List.append_assoc, List.cons_append]
          exact latest q (by simp [inner])
            ((batch_candidate_iff rank s rows turns d _ q rest whole).mpr ⟨tuple, covered, stands⟩)
        rw [kept accepted before p behind split overrides, now, accepted,
          batch_override rank s rows turns after d before p behind split overrides, Bool.and_true]
    · have refused : depsAccepted s d = false := by simpa using accepted
      rw [now, old, isValid, is_valid_document_eq, refused, Bool.and_false, Bool.and_false]

omit policies in
theorem batch_unmoved_iff : (∀ o ∈ s.log, (rows.foldl effectPolicy s).valid o.dot = s.valid o.dot) ↔ Unmoved s rows := by
  have policyIff := batch_policy_iff rank s sound rows turns after
  constructor
  · intro same
    have policies : ∀ q, .policy q ∈ s.log → (rows.foldl effectPolicy s).valid q.dot = s.valid q.dot :=
      fun q member => same (.policy q) member
    refine ⟨?_, ?_⟩
    · intro q member
      have logged := (mem_state_policies s q).mp member
      exact (policyIff q logged).mp (policies q logged)
    · exact fun d member => (batch_document_iff rank s sound rows turns after policies d member).mp (same (.document d) member)
  · intro unmoved
    have policies : ∀ q, .policy q ∈ s.log → (rows.foldl effectPolicy s).valid q.dot = s.valid q.dot :=
      fun q member => (policyIff q member).mpr (unmoved.policies q ((mem_state_policies s q).mpr member))
    intro o member
    cases o with
    | policy q => exact policies q member
    | document d =>
        exact (batch_document_iff rank s sound rows turns after policies d member).mpr (unmoved.documents d member)

end Batch

theorem rebuild_traces (rank : Dot → Nat) (s : State) (doc : Doc) (replayable : Replayable rank s doc) :
    (rebuildFromAutomerge s doc).2 = (newPolicies s doc).map (fun p => .received (.policy p)) ++
      (newDocuments s doc).map (fun d => .received (.document d)) := by
  rw [rebuild_eq, sound_rebuild rank _ (integrated_sound rank s doc replayable), List.append_nil]

theorem received_documents_keep (rows : List DocOp) (s : State) (a : Dot) (fresh : ∀ d ∈ rows, d.dot ≠ a) :
    (rows.foldl effectDocument s).valid a = s.valid a := by
  induction rows generalizing s with
  | nil => rfl
  | cons head tail ih =>
      rw [List.foldl_cons, ih _ (fun d member => fresh d (by simp [member]))]
      exact Function.update_of_ne (fresh head (by simp)).symm _ _

theorem reported_iff (rank : Dot → Nat) (s : State) (doc : Doc) (replayable : Replayable rank s doc) :
    Reported s (rebuildFromAutomerge s doc).1 (rebuildFromAutomerge s doc).2 ↔
      ∀ o ∈ s.log, ((newPolicies s doc).foldl effectPolicy s).valid o.dot = s.valid o.dot := by
  have traces := rebuild_traces rank s doc replayable
  have kept : ∀ o ∈ s.log, (rebuildFromAutomerge s doc).1.valid o.dot =
      ((newPolicies s doc).foldl effectPolicy s).valid o.dot := by
    intro o member
    rw [rebuild_integrated rank s doc replayable, integrated]
    apply received_documents_keep
    intro d row same
    obtain ⟨inDoc, new⟩ := (mem_new_documents rank s doc replayable d).mp row
    exact new_dot rank s doc replayable (.document d) ((document_mem_ops doc d).mpr inDoc) new o member same.symm
  have silent : ∀ d, lastVerdict (rebuildFromAutomerge s doc).2 d = none := by
    intro d
    rw [traces, lastVerdict, List.filterMap_append, List.filterMap_map, List.filterMap_map]
    have policies : (Trace.verdict d ∘ fun p : PolicyOp => Trace.received (.policy p)) = fun _ => none := rfl
    have documents : (Trace.verdict d ∘ fun e : DocOp => Trace.received (.document e)) = fun _ => none := rfl
    rw [policies, documents]
    simp
  constructor
  · intro reported o member
    rw [← kept o member, reported.flags o member, silent, Option.none_or]
  · intro same
    refine ⟨?_, ?_⟩
    · intro o member
      rw [kept o member, same o member, silent, Option.none_or]
    · exact fun d member changed => absurd ((kept (.document d) member).trans (same (.document d) member)) changed

end Accure
