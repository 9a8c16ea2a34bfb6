import Accure.Generated
import Accure.Rendering

set_option autoImplicit false

namespace Accure

theorem deny_covers (p : PolicyOp) (d : Dot) (deny : p.effect = .deny) : covers p d = true := by
  unfold covers
  split
  · rfl
  · split
    · simp [deny]
    · split
      · split
        · rfl
        · simp [deny]
      · simp [deny]

theorem later_doc_member (docs : List DocOp) (start : Option DocOp) (d : DocOp)
    (result : docs.foldl laterDoc start = some d) : d ∈ docs ∨ start = some d := by
  induction docs generalizing start with
  | nil => exact Or.inr result
  | cons e tail ih =>
      rcases ih _ result with later | here
      · exact Or.inl (List.mem_cons_of_mem e later)
      · have either : d = e ∨ start = some d := by
          cases start with
          | none => exact Or.inl (Option.some.inj here).symm
          | some b =>
              by_cases below : b.dot.n ≤ e.dot.n
              · rw [laterDoc, if_pos below] at here
                exact Or.inl (Option.some.inj here).symm
              · rw [laterDoc, if_neg below] at here
                exact Or.inr here
        rcases either with same | started
        · exact Or.inl (same ▸ List.mem_cons_self)
        · exact Or.inr started

theorem later_doc_bound (docs : List DocOp) (start : Option DocOp) (n : Nat)
    (place : (∃ d ∈ docs, d.dot.n = n) ∨ ∃ b, start = some b ∧ n ≤ b.dot.n) :
    ∃ b, docs.foldl laterDoc start = some b ∧ n ≤ b.dot.n := by
  induction docs generalizing start with
  | nil => exact place.resolve_left (by simp)
  | cons e tail ih =>
      apply ih (laterDoc start e)
      have grows : ∀ b, start = some b → ∃ c, laterDoc start e = some c ∧ b.dot.n ≤ c.dot.n := by
        rintro b rfl
        by_cases below : b.dot.n ≤ e.dot.n
        · exact ⟨e, if_pos below, below⟩
        · exact ⟨b, if_neg below, le_refl _⟩
      have reaches : ∃ c, laterDoc start e = some c ∧ e.dot.n ≤ c.dot.n := by
        cases start with
        | none => exact ⟨e, rfl, le_refl _⟩
        | some b =>
            by_cases below : b.dot.n ≤ e.dot.n
            · exact ⟨e, if_pos below, le_refl _⟩
            · exact ⟨b, if_neg below, (Nat.lt_of_not_le below).le⟩
      rcases place with ⟨d, member, rfl⟩ | ⟨b, started, bound⟩
      · rcases List.mem_cons.mp member with same | later
        · exact Or.inr (same ▸ reaches)
        · exact Or.inl ⟨d, later, rfl⟩
      · obtain ⟨c, next, above⟩ := grows b started
        exact Or.inr ⟨c, next, bound.trans above⟩

theorem last_dot_some (s : State) (target : SiteId) (l : Dot) (last : lastDotForWriteTuple s target = some l) :
    ∃ d, .document d ∈ s.log ∧ d.dot.site = target ∧ d.dot = l := by
  rw [lastDotForWriteTuple, Option.map_eq_some_iff] at last
  obtain ⟨d, chosen, dot⟩ := last
  have member := (later_doc_member _ none d chosen).resolve_right (by simp)
  rw [List.mem_filter, List.mem_filterMap] at member
  obtain ⟨⟨o, oIn, document⟩, site⟩ := member
  rw [as_document_some] at document
  exact ⟨d, document ▸ oIn, by simpa using site, dot⟩

theorem last_dot_bound (s : State) (target : SiteId) (d : DocOp) (member : .document d ∈ s.log)
    (site : d.dot.site = target) : ∃ l, lastDotForWriteTuple s target = some l ∧ l.site = target ∧ d.dot.n ≤ l.n := by
  have inside : d ∈ (s.log.filterMap Operation.asDocument).filter (fun d => d.dot.site = target) := by
    rw [List.mem_filter, List.mem_filterMap]
    exact ⟨⟨_, member, rfl⟩, by simpa using site⟩
  obtain ⟨b, chosen, bound⟩ := later_doc_bound _ none d.dot.n (Or.inl ⟨d, inside, rfl⟩)
  have last : lastDotForWriteTuple s target = some b.dot := by rw [lastDotForWriteTuple, chosen, Option.map_some]
  obtain ⟨e, _, eSite, eDot⟩ := last_dot_some s target b.dot last
  exact ⟨b.dot, last, eDot ▸ eSite, bound⟩

def State.HasDocument (s : State) (d : Dot) : Prop := ∃ o, .document o ∈ s.log ∧ o.dot = d

theorem mem_numbers (docs : List DocOp) (set : OrderedSet Nat) (n : Nat) :
    n ∈ docs.foldl (fun set d => set.insert d.dot.n) set ↔ (∃ d ∈ docs, d.dot.n = n) ∨ n ∈ set := by
  induction docs generalizing set with
  | nil => simp
  | cons d tail ih =>
      rw [List.foldl_cons, ih, OrderedSet.mem_insert, List.exists_mem_cons_iff]
      constructor
      · rintro (later | same | old)
        · exact Or.inl (Or.inr later)
        · exact Or.inl (Or.inl same.symm)
        · exact Or.inr old
      · rintro ((same | later) | old)
        · exact Or.inr (Or.inl same.symm)
        · exact Or.inl later
        · exact Or.inr (Or.inr old)

theorem has_document_iff (s : State) (target : SiteId) (n : Nat) : s.HasDocument ⟨target, n⟩ ↔
    ∃ d ∈ (s.log.filterMap Operation.asDocument).filter (fun d => d.dot.site = target), d.dot.n = n := by
  constructor
  · rintro ⟨d, member, dot⟩
    refine ⟨d, List.mem_filter.mpr ⟨List.mem_filterMap.mpr ⟨_, member, rfl⟩, ?_⟩, ?_⟩ <;> simp [dot]
  · rintro ⟨d, member, rfl⟩
    rw [List.mem_filter, List.mem_filterMap] at member
    obtain ⟨⟨o, oIn, document⟩, site⟩ := member
    rw [as_document_some] at document
    have here : d.dot.site = target := by simpa using site
    exact ⟨d, document ▸ oIn, here ▸ rfl⟩

theorem mem_missing (s : State) (target : SiteId) (l m : Dot) : m ∈ deriveMissingDots s target (some l) ↔
    m.site = target ∧ 1 ≤ m.n ∧ m.n < l.n ∧ ¬ s.HasDocument m := by
  rw [deriveMissingDots, List.mem_map]
  constructor
  · rintro ⟨n, inside, rfl⟩
    rw [List.mem_filter, List.mem_range'_1] at inside
    obtain ⟨range, fresh⟩ := inside
    have below : n < l.n := by omega
    refine ⟨rfl, range.1, below, ?_⟩
    intro known
    have unseen := of_decide_eq_true fresh
    rw [OrderedSet.mem_insert, mem_numbers] at unseen
    exact unseen (Or.inr (Or.inl ((has_document_iff s target n).mp known)))
  · rintro ⟨rfl, positive, below, absent⟩
    refine ⟨m.n, List.mem_filter.mpr ⟨List.mem_range'_1.mpr (by omega), decide_eq_true ?_⟩, rfl⟩
    rw [OrderedSet.mem_insert, mem_numbers]
    rintro (last | known | empty)
    · omega
    · exact absent ((has_document_iff s m.site m.n).mpr known)
    · exact absurd empty (OrderedSet.not_mem_empty m.n)

theorem missing_below (s : State) (target : SiteId) (last : Option Dot) (m : Dot)
    (member : m ∈ deriveMissingDots s target last) : ∃ l, last = some l ∧ m.site = target ∧ m.n < l.n := by
  cases last with
  | none => exact absurd member List.not_mem_nil
  | some l =>
      obtain ⟨site, _, below, _⟩ := (mem_missing s target l m).mp member
      exact ⟨l, rfl, site, below⟩

theorem missing_sorted (s : State) (target : SiteId) (last : Option Dot) :
    (deriveMissingDots s target last).Pairwise (· < ·) := by
  cases last with
  | none => exact List.Pairwise.nil
  | some l =>
      rw [deriveMissingDots, List.pairwise_map]
      refine List.Pairwise.imp ?_ ((List.pairwise_lt_range' ..).filter _)
      intro a b less
      exact Prod.Lex.right target less

theorem last_dot_none (s : State) (target : SiteId) :
    lastDotForWriteTuple s target = none ↔ ∀ n, ¬ s.HasDocument ⟨target, n⟩ := by
  constructor
  · rintro nothing n ⟨d, member, dot⟩
    obtain ⟨l, last, _⟩ := last_dot_bound s target d member (by rw [dot])
    exact absurd (nothing.symm.trans last) (by simp)
  · intro absent
    cases last : lastDotForWriteTuple s target with
    | none => rfl
    | some l =>
        obtain ⟨d, member, rfl, dot⟩ := last_dot_some s target l last
        exact absurd ⟨d, member, rfl⟩ (absent d.dot.n)

theorem has_document_known (s : State) (target : SiteId) (k : Nat) (positive : 1 ≤ k) : s.HasDocument ⟨target, k⟩ ↔
    ∃ n, lastDotForWriteTuple s target = some ⟨target, n⟩ ∧ k ≤ n ∧
      ⟨target, k⟩ ∉ deriveMissingDots s target (lastDotForWriteTuple s target) := by
  constructor
  · rintro ⟨d, member, dot⟩
    obtain ⟨⟨site, n⟩, last, rfl, bound⟩ := last_dot_bound s target d member (by rw [dot])
    refine ⟨n, last, by simpa [dot] using bound, ?_⟩
    rw [last, mem_missing]
    rintro ⟨_, _, _, absent⟩
    exact absent ⟨d, member, dot⟩
  · rintro ⟨n, last, bound, present⟩
    rw [last, mem_missing] at present
    rcases Nat.lt_or_eq_of_le bound with below | rfl
    · by_contra absent
      exact present ⟨rfl, positive, below, absent⟩
    · obtain ⟨d, member, _, dot⟩ := last_dot_some s target _ last
      exact ⟨d, member, dot⟩

-- A policy op speaks only of document ops its author had.
structure Informed (w : World) : Prop where
  seen : ∀ p, .policy p ∈ w.history → ∀ l, p.lastDotSeen = some l → l.site = p.target ∧ ∃ o ∈ w.history, o.dot = l
  missing : ∀ p, .policy p ∈ w.history → ∀ m ∈ p.missingDots, ∃ l, p.lastDotSeen = some l ∧ m.site = l.site ∧ m.n < l.n

theorem informed_step (w next : World) (faithful : Faithful w) (informed : Informed w) (step : Step CausalSync w next) :
    Informed next := by
  have grow : ∀ o : Operation, (∀ p, o = .policy p → ∃ i target right effect, p = freshPolicy (w.site i).state target right effect) →
      (∀ p, .policy p ∈ w.history ++ [o] → ∀ l, p.lastDotSeen = some l → l.site = p.target ∧ ∃ x ∈ w.history ++ [o], x.dot = l) ∧
      (∀ p, .policy p ∈ w.history ++ [o] → ∀ m ∈ p.missingDots, ∃ l, p.lastDotSeen = some l ∧ m.site = l.site ∧ m.n < l.n) := by
    intro o fresh
    constructor
    · intro p member l last
      rcases List.mem_append.mp member with old | new
      · obtain ⟨site, x, xIn, dot⟩ := informed.seen p old l last
        exact ⟨site, x, List.mem_append_left _ xIn, dot⟩
      · obtain ⟨i, target, right, effect, rfl⟩ := fresh p (List.mem_singleton.mp new).symm
        obtain ⟨d, dIn, site, dot⟩ := last_dot_some _ _ _ last
        exact ⟨dot ▸ site, .document d, List.mem_append_left _ (log_recorded w faithful i _ dIn), dot⟩
    · intro p member m absent
      rcases List.mem_append.mp member with old | new
      · exact informed.missing p old m absent
      · obtain ⟨i, target, right, effect, rfl⟩ := fresh p (List.mem_singleton.mp new).symm
        obtain ⟨l, last, site, below⟩ := missing_below _ _ _ m absent
        obtain ⟨_, _, lSite, lDot⟩ := last_dot_some _ _ _ last
        exact ⟨l, last, site.trans (lDot ▸ lSite).symm, below⟩
  cases step with
  | updatePolicy i target right effect p s doc ok =>
      obtain ⟨_, rfl, rfl, rfl⟩ := (update_policy_ok _ _ _ _ _ _ _ _).mp ok
      obtain ⟨seen, missing⟩ := grow (.policy (freshPolicy (w.site i).state target right effect)) (by
        intro p same
        exact ⟨i, target, right, effect, (Operation.policy.inj same).symm⟩)
      exact ⟨seen, missing⟩
  | updateDocument i edit d s doc ok =>
      obtain ⟨seen, missing⟩ := grow (.document d) (fun p impossible => by cases impossible)
      exact ⟨seen, missing⟩
  | sync => exact ⟨informed.seen, informed.missing⟩
  | rebuild => exact ⟨informed.seen, informed.missing⟩

theorem informed_run (strategy : Strategy) (w : World) (run : CausalRun strategy w) : Informed w := by
  have both : Faithful w ∧ Informed w := by
    refine reachable_invariant CausalSync _ (fun w => Faithful w ∧ Informed w) ⟨faithful_init _, ?_⟩ ?_ w run
    · exact ⟨fun p member => absurd member List.not_mem_nil, fun p member => absurd member List.not_mem_nil⟩
    · intro w next invariant step
      exact ⟨faithful_step CausalSync (fun _ _ _ _ sync => sync.toDelivered) w next invariant.1 step,
        informed_step w next invariant.1 invariant.2 step⟩
  exact both.2

theorem covers_fresh (w : World) (faithful : Faithful w) (informed : Informed w) (i : SiteId) (p : PolicyOp)
    (member : .policy p ∈ w.history) (target : p.target = i) :
    covers p ⟨i, (w.site i).state.counter + 1⟩ = decide (p.effect = .deny) := by
  have bound : ∀ l, p.lastDotSeen = some l → l.site = i ∧ l.n ≤ (w.site i).state.counter := by
    intro l last
    obtain ⟨site, o, oIn, dot⟩ := informed.seen p member l last
    have below := history_bound w faithful o oIn
    have here : l.site = i := site.trans target
    rw [dot, here] at below
    exact ⟨here, below⟩
  have notMissing : p.missingDots.any (fun m => m = ⟨i, (w.site i).state.counter + 1⟩) = false := by
    rw [List.any_eq_false]
    intro m absent same
    have equal : m = ⟨i, (w.site i).state.counter + 1⟩ := by simpa using same
    obtain ⟨l, last, _, less⟩ := informed.missing p member m absent
    have below := (bound l last).2
    rw [equal] at less
    dsimp only at less
    omega
  rw [covers, notMissing, if_neg (by simp)]
  cases last : p.lastDotSeen with
  | none => rfl
  | some l =>
      obtain ⟨site, below⟩ := bound l last
      dsimp only
      rw [if_pos site, if_neg (by omega)]

-- A policy op says exactly which document ops of its target the author had.
theorem update_policy_knows (s next : State) (doc appended : Doc) (target : SiteId) (right : Right) (effect : Effect)
    (p : PolicyOp) (ok : updatePolicy s doc target right effect = .ok (p, next, appended)) :
    (∀ k, 1 ≤ k → ((∃ d, .document d ∈ s.log ∧ d.dot = ⟨target, k⟩) ↔
      ∃ n, p.lastDotSeen = some ⟨target, n⟩ ∧ k ≤ n ∧ ⟨target, k⟩ ∉ p.missingDots)) ∧
    (p.lastDotSeen = none ↔ ∀ d, .document d ∈ s.log → d.dot.site ≠ target) ∧
    p.missingDots.Pairwise (· < ·) ∧
    ∀ m ∈ p.missingDots, m.site = target ∧ ∃ n, p.lastDotSeen = some ⟨target, n⟩ ∧ m.n < n := by
  obtain ⟨_, rfl, _, _⟩ := (update_policy_ok s next doc appended target right effect p).mp ok
  refine ⟨has_document_known s target, ?_, missing_sorted s target _, ?_⟩
  · refine (last_dot_none s target).trans ?_
    constructor
    · rintro absent d member rfl
      exact absent d.dot.n ⟨d, member, rfl⟩
    · rintro absent n ⟨d, member, dot⟩
      exact absent d member (by rw [dot])
  · intro m member
    obtain ⟨l, last, site, below⟩ := missing_below s target _ m member
    obtain ⟨_, _, lSite, lDot⟩ := last_dot_some s target l last
    refine ⟨site, l.n, last.trans ?_, below⟩
    rw [← lSite, lDot]

def gapped : State :=
  { (State.new "A" .integrity).bootstrapSelf with
    log := [.document ⟨⟨"B", 3⟩, [], .insert 0 'c'⟩, .document ⟨⟨"B", 1⟩, [], .insert 0 'a'⟩] }

example : (lastDotForWriteTuple gapped "B", deriveMissingDots gapped "B" (some ⟨"B", 3⟩)) =
    (some ⟨"B", 3⟩, [⟨"B", 2⟩]) := by decide +kernel

theorem gapped_update_knows : (∃ d, .document d ∈ gapped.log ∧ d.dot = ⟨"B", 1⟩) ↔
    ∃ n, (freshPolicy gapped "B" .write .deny).lastDotSeen = some ⟨"B", n⟩ ∧ 1 ≤ n ∧
      ⟨"B", 1⟩ ∉ (freshPolicy gapped "B" .write .deny).missingDots :=
  (update_policy_knows gapped _ ⟨[], []⟩ _ "B" .write .deny _
    (update_policy_accepted gapped ⟨[], []⟩ "B" .write .deny (by decide +kernel))).1 1 (le_refl 1)

end Accure
