import Accure.PolicyGraph

set_option autoImplicit false

namespace Accure

section Loop

variable (s : State) (dag : Dag) (considers : PolicyOp → Bool)

def Offers (n : Dot) (p : PolicyOp) : Prop := s.Marked n ∧ s.policyOp n = some p ∧ considers p = true

structure Best (rows : List Dot) (lvl : Nat) (p : PolicyOp) : Prop where
  found : ∃ n ∈ rows, Offers s considers n p ∧ dag.level n = lvl
  highest : ∀ n ∈ rows, ∀ q, Offers s considers n q → dag.level n ≤ lvl
  tie : ∀ n ∈ rows, ∀ q, Offers s considers n q → dag.level n = lvl → s.strategy.favors q.effect = true →
    s.strategy.favors p.effect = true

def BestSoFar (rows : List Dot) : Option (Nat × PolicyOp) → Prop
  | none => ∀ n ∈ rows, ∀ q, ¬ Offers s considers n q
  | some (lvl, p) => Best s dag considers rows lvl p

theorem best_skip (rows : List Dot) (best : Option (Nat × PolicyOp)) (n : Dot) (skipped : ∀ q, ¬ Offers s considers n q)
    (sofar : BestSoFar s dag considers rows best) : BestSoFar s dag considers (rows ++ [n]) best := by
  have inside : ∀ m ∈ rows ++ [n], ∀ q, Offers s considers m q → m ∈ rows := by
    intro m member q offers
    rcases List.mem_append.mp member with old | new
    · exact old
    · exact absurd offers (List.mem_singleton.mp new ▸ skipped q)
  cases best with
  | none => exact fun m member q offers => sofar m (inside m member q offers) q offers
  | some best =>
      obtain ⟨m, mIn, offers, level⟩ := sofar.found
      exact ⟨⟨m, List.mem_append_left _ mIn, offers, level⟩,
        fun m member q offers => sofar.highest m (inside m member q offers) q offers,
        fun m member q offers => sofar.tie m (inside m member q offers) q offers⟩

-- The op in hand stays: none as deep as the new one was deeper, and a tie was lost.
theorem best_stays (rows : List Dot) (bl : Nat) (bp : PolicyOp) (n : Dot) (p : PolicyOp) (offers : Offers s considers n p)
    (sofar : Best s dag considers rows bl bp) (below : dag.level n ≤ bl)
    (tie : dag.level n = bl → s.strategy.favors p.effect ≠ true) : Best s dag considers (rows ++ [n]) bl bp := by
  have only : ∀ q, Offers s considers n q → q = p := fun q other => Option.some.inj (other.2.1.symm.trans offers.2.1)
  obtain ⟨m, mIn, found, level⟩ := sofar.found
  refine ⟨⟨m, List.mem_append_left _ mIn, found, level⟩, ?_, ?_⟩
  · intro k member q other
    rcases List.mem_append.mp member with old | new
    · exact sofar.highest k old q other
    · exact List.mem_singleton.mp new ▸ below
  · intro k member q other same favored
    rcases List.mem_append.mp member with old | new
    · exact sofar.tie k old q other same favored
    · cases List.mem_singleton.mp new
      exact absurd (only q other ▸ favored) (tie same)

theorem best_replaced (rows : List Dot) (n : Dot) (p : PolicyOp) (offers : Offers s considers n p)
    (above : ∀ k ∈ rows, ∀ q, Offers s considers k q → dag.level k ≤ dag.level n)
    (tie : ∀ k ∈ rows, ∀ q, Offers s considers k q → dag.level k = dag.level n → s.strategy.favors p.effect = true) :
    Best s dag considers (rows ++ [n]) (dag.level n) p := by
  have only : ∀ q, Offers s considers n q → q = p := fun q other => Option.some.inj (other.2.1.symm.trans offers.2.1)
  refine ⟨⟨n, by simp, offers, rfl⟩, ?_, ?_⟩
  · intro k member q other
    rcases List.mem_append.mp member with old | new
    · exact above k old q other
    · rw [List.mem_singleton.mp new]
  · intro k member q other same favored
    rcases List.mem_append.mp member with old | new
    · exact tie k old q other same
    · cases List.mem_singleton.mp new
      exact only q other ▸ favored

theorem best_deepen (rows : List Dot) (best : Option (Nat × PolicyOp)) (n : Dot) (p : PolicyOp)
    (offers : Offers s considers n p) (sofar : BestSoFar s dag considers rows best) :
    BestSoFar s dag considers (rows ++ [n]) (deepen s.strategy best (dag.level n) p) := by
  cases best with
  | none =>
      apply best_replaced s dag considers rows n p offers
      · exact fun k member q other => absurd other (sofar k member q)
      · exact fun k member q other => absurd other (sofar k member q)
  | some best =>
      obtain ⟨bl, bp⟩ := best
      have sofar : Best s dag considers rows bl bp := sofar
      rw [deepen]
      by_cases below : bl > dag.level n
      · rw [if_pos below]
        exact best_stays s dag considers rows bl bp n p offers sofar below.le (fun same => absurd same (Nat.ne_of_lt below))
      · rw [if_neg below]
        by_cases same : bl = dag.level n
        · subst same
          rw [if_pos rfl]
          by_cases favored : s.strategy.favors p.effect = true
          · rw [if_pos favored]
            exact best_replaced s dag considers rows n p offers sofar.highest (fun _ _ _ _ _ => favored)
          · rw [if_neg favored]
            exact best_stays s dag considers rows _ bp n p offers sofar (Nat.le_refl _) (fun _ => favored)
        · rw [if_neg same]
          have above : bl < dag.level n := Nat.lt_of_le_of_ne (Nat.not_lt.mp below) same
          apply best_replaced s dag considers rows n p offers
          · exact fun k member q other => (sofar.highest k member q other).trans above.le
          · intro k member q other equal
            have lower := sofar.highest k member q other
            omega

theorem best_step (rows : List Dot) (best : Option (Nat × PolicyOp)) (n : Dot)
    (sofar : BestSoFar s dag considers rows best) :
    BestSoFar s dag considers (rows ++ [n]) (deepestStep s dag considers best n) := by
  rw [deepestStep]
  by_cases marked : s.markedValid n = true
  · rw [if_pos marked]
    cases found : s.policyOp n with
    | none => exact best_skip s dag considers rows best n (fun q offers => by simp [Offers, found] at offers) sofar
    | some p =>
        by_cases considered : considers p = true
        · simp only [considered, if_true]
          exact best_deepen s dag considers rows best n p ⟨marked, found, considered⟩ sofar
        · simp only [considered]
          refine best_skip s dag considers rows best n (fun q offers => ?_) sofar
          have same : p = q := Option.some.inj (found.symm.trans offers.2.1)
          exact considered (same ▸ offers.2.2)
  · rw [if_neg marked]
    exact best_skip s dag considers rows best n (fun q offers => marked offers.1) sofar

theorem deepest_best : BestSoFar s dag considers dag.nodes.elems (deepest s dag considers) := by
  have walk : ∀ after before best, BestSoFar s dag considers before best →
      BestSoFar s dag considers (before ++ after) (after.foldl (deepestStep s dag considers) best) := by
    intro after
    induction after with
    | nil =>
        intro before best sofar
        simpa using sofar
    | cons n tail ih =>
        intro before best sofar
        have next := ih (before ++ [n]) _ (best_step s dag considers before best n sofar)
        rwa [List.append_assoc, List.singleton_append] at next
  exact walk dag.nodes.elems [] none (by simp [BestSoFar])

end Loop

section Candidates

variable (rank : Dot → Nat) (s : State) (consistent : Consistent rank s)
variable (t : AccessTuple) (considers : PolicyOp → Bool)

structure Candidate (s : State) (t : AccessTuple) (considers : PolicyOp → Bool) (p : PolicyOp) : Prop where
  logged : .policy p ∈ s.log
  tuple : p.tuple = t
  valid : s.Marked p.dot
  considered : considers p = true

include consistent

theorem offers_iff (p : PolicyOp) :
    (∃ n ∈ (s.dagAt t).nodes, Offers s considers n p) ↔ Candidate s t considers p := by
  constructor
  · rintro ⟨n, node, marked, found, considered⟩
    obtain ⟨member, rfl⟩ := (policy_op_some_iff s consistent.nodup n p).mp found
    obtain ⟨q, qIn, tuple, dot⟩ := (consistent.nodes t p.dot).mp node
    have same : Operation.policy q = .policy p := same_dot_same_op s.log consistent.nodup _ _ qIn member dot
    cases same
    exact ⟨member, tuple, marked, considered⟩
  · intro candidate
    exact ⟨p.dot, (consistent.nodes t p.dot).mpr ⟨p, candidate.logged, candidate.tuple, rfl⟩, candidate.valid,
      (policy_op_some_iff s consistent.nodup p.dot p).mpr ⟨candidate.logged, rfl⟩, candidate.considered⟩

theorem candidate_offers (p : PolicyOp) (candidate : Candidate s t considers p) :
    p.dot ∈ (s.dagAt t).nodes ∧ Offers s considers p.dot p :=
  ⟨(consistent.nodes t p.dot).mpr ⟨p, candidate.logged, candidate.tuple, rfl⟩, candidate.valid,
    (policy_op_some_iff s consistent.nodup p.dot p).mpr ⟨candidate.logged, rfl⟩, candidate.considered⟩

theorem deepest_none (nothing : deepest s (s.dagAt t) considers = none) (p : PolicyOp) :
    ¬ Candidate s t considers p := by
  intro candidate
  obtain ⟨node, offers⟩ := candidate_offers rank s consistent t considers p candidate
  have best := deepest_best s (s.dagAt t) considers
  rw [nothing] at best
  exact best p.dot node p offers

theorem deepest_chosen (lvl : Nat) (p : PolicyOp) (chosen : deepest s (s.dagAt t) considers = some (lvl, p)) :
    Candidate s t considers p ∧ (∀ q, Candidate s t considers q → rank q.dot ≤ rank p.dot) ∧
      ∀ q, Candidate s t considers q → rank q.dot = rank p.dot → s.strategy.favors q.effect = true →
        s.strategy.favors p.effect = true := by
  have best := deepest_best s (s.dagAt t) considers
  rw [chosen] at best
  obtain ⟨n, node, offers, level⟩ := best.found
  have dot : p.dot = n := ((policy_op_some_iff s consistent.nodup n p).mp offers.2.1).2
  have value : lvl = rank p.dot := by rw [← level, dot, level_rank rank s consistent t n node]
  refine ⟨(offers_iff rank s consistent t considers p).mp ⟨n, node, offers⟩, ?_, ?_⟩
  · intro q candidate
    obtain ⟨qNode, qOffers⟩ := candidate_offers rank s consistent t considers q candidate
    rw [← value, ← level_rank rank s consistent t q.dot qNode]
    exact best.highest q.dot qNode q qOffers
  · intro q candidate same
    obtain ⟨qNode, qOffers⟩ := candidate_offers rank s consistent t considers q candidate
    rw [← value, ← level_rank rank s consistent t q.dot qNode] at same
    exact best.tie q.dot qNode q qOffers same

theorem decided_by (p : PolicyOp) (candidate : Candidate s t considers p)
    (agree : ∀ q, Candidate s t considers q → rank p.dot ≤ rank q.dot → q.effect = p.effect) :
    allowedBy (deepest s (s.dagAt t) considers) = decide (p.effect = .allow) := by
  cases chosen : deepest s (s.dagAt t) considers with
  | none => exact absurd candidate (deepest_none rank s consistent t considers chosen p)
  | some best =>
      obtain ⟨lvl, q⟩ := best
      obtain ⟨qCandidate, highest, _⟩ := deepest_chosen rank s consistent t considers lvl q chosen
      rw [allowedBy, agree q qCandidate (highest p candidate)]

theorem undecided (nobody : ∀ q, ¬ Candidate s t considers q) : allowedBy (deepest s (s.dagAt t) considers) = true := by
  cases chosen : deepest s (s.dagAt t) considers with
  | none => rfl
  | some best => exact absurd (deepest_chosen rank s consistent t considers best.1 best.2 chosen).1 (nobody _)

theorem rank_pos (p : PolicyOp) (member : .policy p ∈ s.log) : 0 < rank p.dot := by
  cases deps : p.deps with
  | nil =>
      rw [consistent.rankRoot p member deps]
      exact Nat.one_pos
  | cons a rest =>
      rw [consistent.rankDep p member a (by simp [deps])]
      exact Nat.succ_pos _

theorem mem_top_deps (a : Dot) : a ∈ currentTopLevelDeps s t ↔
    (∃ q, .policy q ∈ s.log ∧ q.tuple = t ∧ q.dot = a) ∧ rank a = (s.dagAt t).maxLevel ∧ s.Marked a := by
  have same : currentTopLevelDeps s t = if (s.dagAt t).maxLevel = 0 then []
      else ((s.dagAt t).atLevel (s.dagAt t).maxLevel).filter s.markedValid := by
    rw [currentTopLevelDeps, State.tuple, State.dagAt]
    cases s.g t with
    | none => simp [Dag.maxLevel, Dag.new]
    | some dag => rfl
  rw [same, ← consistent.nodes t a]
  by_cases empty : (s.dagAt t).maxLevel = 0
  · rw [if_pos empty]
    refine ⟨fun impossible => absurd impossible List.not_mem_nil, ?_⟩
    rintro ⟨node, level, _⟩
    obtain ⟨p, member, _, rfl⟩ := (consistent.nodes t a).mp node
    have positive := rank_pos rank s consistent p member
    omega
  · rw [if_neg empty, List.mem_filter, Dag.atLevel, List.mem_filter, decide_eq_true_eq]
    constructor
    · rintro ⟨⟨node, level⟩, marked⟩
      exact ⟨node, (level_rank rank s consistent t a node) ▸ level, marked⟩
    · rintro ⟨node, level, marked⟩
      exact ⟨⟨node, (level_rank rank s consistent t a node).trans level⟩, marked⟩

theorem rank_le_max (p : PolicyOp) (member : .policy p ∈ s.log) (tuple : p.tuple = t) :
    rank p.dot ≤ (s.dagAt t).maxLevel := by
  have node := (consistent.nodes t p.dot).mpr ⟨p, member, tuple, rfl⟩
  rw [← level_rank rank s consistent t p.dot node]
  exact level_le_max _ _ node

end Candidates

end Accure
