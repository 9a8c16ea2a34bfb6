import Accure.Updates

set_option autoImplicit false

namespace Accure

theorem integrate_next (s : State) (o : Operation) :
    (s.integrate o).nextN = (s.noteN o.dot.site .site o.dot.n).nextN := by
  cases o with
  | policy p => exact effect_policy_next s p
  | document d => rfl

theorem integrate_nodes (s : State) (o : Operation) (t : AccessTuple) (d : Dot) :
    d ∈ ((s.integrate o).dagAt t).nodes ↔
      (∃ p, o = .policy p ∧ p.tuple = t ∧ (d = p.dot ∨ d ∈ p.deps)) ∨ d ∈ (s.dagAt t).nodes := by
  cases o with
  | policy p =>
      rw [State.integrate, effect_policy_dag, admit_nodes]
      simp [eq_comm]
  | document e =>
      have same : ((s.integrate (.document e)).dagAt t) = s.dagAt t := rfl
      simp [same]

theorem integrate_parents (s : State) (o : Operation) (t : AccessTuple) (a b : Dot) :
    a ∈ ((s.integrate o).dagAt t).parents b ↔
      (∃ p, o = .policy p ∧ p.tuple = t ∧ b = p.dot ∧ a ∈ p.deps) ∨ a ∈ (s.dagAt t).parents b := by
  cases o with
  | policy p =>
      rw [State.integrate, effect_policy_dag, admit_parents]
      simp [eq_comm]
  | document e =>
      have same : ((s.integrate (.document e)).dagAt t) = s.dagAt t := rfl
      simp [same]

def Counts (ops : List Operation) (site : SiteId) : Option Nat → Prop
  | none => ∀ o ∈ ops, o.dot.site ≠ site
  | some m => (∃ o ∈ ops, o.dot.site = site ∧ o.dot.n = m) ∧ ∀ o ∈ ops, o.dot.site = site → o.dot.n ≤ m

theorem counts_unique (ops rows : List Operation) (same : ∀ o, o ∈ ops ↔ o ∈ rows) (site : SiteId) (a b : Option Nat)
    (left : Counts ops site a) (right : Counts rows site b) : a = b := by
  cases a with
  | none =>
      cases b with
      | none => rfl
      | some m =>
          obtain ⟨⟨o, member, emitter, _⟩, _⟩ := right
          exact absurd emitter (left o ((same o).mpr member))
  | some n =>
      obtain ⟨⟨o, oIn, oSite, oNumber⟩, bound⟩ := left
      cases b with
      | none => exact absurd oSite (right o ((same o).mp oIn))
      | some m =>
          obtain ⟨⟨x, xIn, xSite, xNumber⟩, xBound⟩ := right
          have above := bound x ((same x).mpr xIn) xSite
          have below := xBound o ((same o).mp oIn) oSite
          exact congrArg some (by omega)

theorem note_next (s : State) (site other : SiteId) (key here : TupleKey) (n : Nat) :
    (s.noteN site key n).nextN (other, here) =
      if other = site ∧ here = .site then some (max n ((s.nextN (site, .site)).getD 0)) else s.nextN (other, here) := by
  have larger : (if n > (s.nextN (site, .site)).getD 0 then n else (s.nextN (site, .site)).getD 0) =
      max n ((s.nextN (site, .site)).getD 0) := by
    split <;> omega
  simp only [State.noteN, Function.update_apply, Prod.mk.injEq, larger]

theorem counts_noted (ops : List Operation) (o : Operation) (site : SiteId) (entry : Option Nat)
    (counts : Counts ops site entry) : Counts (ops ++ [o]) site
      (if site = o.dot.site then some (max o.dot.n (entry.getD 0)) else entry) := by
  by_cases here : site = o.dot.site
  · rw [if_pos here]
    cases entry with
    | none =>
        rw [Option.getD_none, Nat.max_zero]
        refine ⟨⟨o, by simp, here.symm, rfl⟩, ?_⟩
        intro x member emitter
        rcases List.mem_append.mp member with old | new
        · exact absurd emitter (counts x old)
        · rw [List.mem_singleton.mp new]
    | some m =>
        obtain ⟨⟨x, xIn, xSite, xNumber⟩, bound⟩ := counts
        rw [Option.getD_some]
        constructor
        · rcases le_total o.dot.n m with below | above
          · exact ⟨x, by simp [xIn], xSite, by rw [max_eq_right below, xNumber]⟩
          · exact ⟨o, by simp, here.symm, (max_eq_left above).symm⟩
        · intro y member emitter
          rcases List.mem_append.mp member with old | new
          · exact (bound y old emitter).trans (le_max_right _ _)
          · rw [List.mem_singleton.mp new]
            exact le_max_left _ _
  · rw [if_neg here]
    have inside : ∀ x ∈ ops ++ [o], x.dot.site = site → x ∈ ops := by
      intro x member emitter
      rcases List.mem_append.mp member with old | new
      · exact old
      · exact absurd (List.mem_singleton.mp new ▸ emitter).symm here
    cases entry with
    | none => exact fun x member emitter => counts x (inside x member emitter) emitter
    | some m =>
        obtain ⟨⟨x, xIn, xFacts⟩, bound⟩ := counts
        exact ⟨⟨x, by simp [xIn], xFacts⟩, fun y member emitter => bound y (inside y member emitter) emitter⟩

theorem policy_concat (init : List Operation) (o : Operation) (holds : PolicyOp → Prop) :
    (∃ p, .policy p ∈ init ++ [o] ∧ holds p) ↔ (∃ p, o = .policy p ∧ holds p) ∨ ∃ p, .policy p ∈ init ∧ holds p := by
  simp only [List.mem_append, List.mem_singleton]
  constructor
  · rintro ⟨p, earlier | here, facts⟩
    · exact Or.inr ⟨p, earlier, facts⟩
    · exact Or.inl ⟨p, here.symm, facts⟩
  · rintro (⟨p, here, facts⟩ | ⟨p, earlier, facts⟩)
    · exact ⟨p, Or.inr here.symm, facts⟩
    · exact ⟨p, Or.inl earlier, facts⟩

theorem fold_concat (s : State) (init : List Operation) (o : Operation) :
    (init ++ [o]).foldl State.integrate s = (init.foldl State.integrate s).integrate o := by
  rw [List.foldl_append, List.foldl_cons, List.foldl_nil]

-- The graphs and counters after a sequence of ops, told from its members alone.
section Fold

variable (s : State) (ops : List Operation)

theorem fold_nodes (empty : ∀ t, s.dagAt t = Dag.new) (t : AccessTuple) (d : Dot) :
    d ∈ ((ops.foldl State.integrate s).dagAt t).nodes ↔
      ∃ p, .policy p ∈ ops ∧ p.tuple = t ∧ (d = p.dot ∨ d ∈ p.deps) := by
  induction ops using List.reverseRecOn with
  | nil => simp [empty, Dag.new]
  | append_singleton init o ih => rw [fold_concat, integrate_nodes, ih, policy_concat]

theorem fold_parents (empty : ∀ t, s.dagAt t = Dag.new) (t : AccessTuple) (a b : Dot) :
    a ∈ ((ops.foldl State.integrate s).dagAt t).parents b ↔
      ∃ p, .policy p ∈ ops ∧ p.tuple = t ∧ b = p.dot ∧ a ∈ p.deps := by
  induction ops using List.reverseRecOn with
  | nil => simp [empty, Dag.new]
  | append_singleton init o ih => rw [fold_concat, integrate_parents, ih, policy_concat]

theorem fold_counts (uncounted : ∀ k, s.nextN k = none) (site : SiteId) :
    Counts ops site ((ops.foldl State.integrate s).nextN (site, .site)) := by
  induction ops using List.reverseRecOn with
  | nil =>
      rw [List.foldl_nil, uncounted]
      exact fun o member => absurd member List.not_mem_nil
  | append_singleton init o ih =>
      rw [fold_concat, integrate_next, note_next]
      have next := counts_noted init o site _ ih
      by_cases here : site = o.dot.site
      · rw [if_pos here, here] at next
        rwa [if_pos ⟨here, rfl⟩, here]
      · rw [if_neg here] at next
        rwa [if_neg (fun both => here both.1)]

theorem fold_unkeyed (uncounted : ∀ k, s.nextN k = none) (site : SiteId) (key : TupleKey) (other : key ≠ .site) :
    (ops.foldl State.integrate s).nextN (site, key) = none := by
  induction ops using List.reverseRecOn with
  | nil => exact uncounted _
  | append_singleton init o ih =>
      rw [fold_concat, integrate_next, note_next, if_neg (fun both => other both.2)]
      exact ih

end Fold

structure SameGraphs (s u : State) : Prop where
  graphs : ∀ t, u.dagAt t = s.dagAt t
  counters : u.nextN = s.nextN

structure WellLinked (s : State) : Prop where
  converse : ∀ t dep op, op ∈ (s.dagAt t).out dep ↔ dep ∈ (s.dagAt t).parents op
  endpoints : ∀ t dep op, dep ∈ (s.dagAt t).parents op → dep ∈ (s.dagAt t).nodes ∧ op ∈ (s.dagAt t).nodes

theorem integration_unordered (me other : SiteId) (strategy rival : Strategy) (doc copy : Doc) (ops rows : List Operation)
    (same : ∀ o, o ∈ rows ↔ o ∈ ops) :
    SameGraphs (ops.foldl State.integrate (newStateFromBytes me strategy doc).1)
        (rows.foldl State.integrate (newStateFromBytes other rival copy).1) ∧
      WellLinked (ops.foldl State.integrate (newStateFromBytes me strategy doc).1) ∧
      WellLinked (rows.foldl State.integrate (newStateFromBytes other rival copy).1) := by
  have linked : ∀ s, WellLinked s := fun s => ⟨fun t => (s.dagAt t).converse, fun t => (s.dagAt t).endpoints⟩
  have empty : ∀ t, ((newStateFromBytes me strategy doc).1).dagAt t = Dag.new := bootstrap_dag me strategy
  have bare : ∀ t, ((newStateFromBytes other rival copy).1).dagAt t = Dag.new := bootstrap_dag other rival
  refine ⟨⟨?_, ?_⟩, linked _, linked _⟩
  · intro t
    apply dag_ext
    · intro d
      rw [fold_nodes _ rows bare, fold_nodes _ ops empty]
      simp only [same]
    · intro a b
      rw [fold_parents _ rows bare, fold_parents _ ops empty]
      simp only [same]
  · funext ⟨site, key⟩
    by_cases here : key = .site
    · subst here
      exact counts_unique rows ops same site _ _ (fold_counts _ rows (fun _ => rfl) site) (fold_counts _ ops (fun _ => rfl) site)
    · rw [fold_unkeyed _ rows (fun _ => rfl) site key here, fold_unkeyed _ ops (fun _ => rfl) site key here]

theorem scrambled_unordered :
    let grant : PolicyOp := ⟨⟨"A", 1⟩, "B", .write, .allow, [], none, []⟩
    let revoke : PolicyOp := ⟨⟨"A", 2⟩, "B", .write, .deny, [⟨"A", 1⟩], none, []⟩
    SameGraphs ([.policy revoke, .policy grant].foldl State.integrate (newStateFromBytes "A" .integrity newSharedDoc).1)
      ([.policy grant, .policy revoke, .policy revoke].foldl State.integrate
        (newStateFromBytes "B" .accessibility newSharedDoc).1) :=
  (integration_unordered "A" "B" .integrity .accessibility newSharedDoc newSharedDoc _ _
    (fun o => by simp only [List.mem_cons]; tauto)).1

end Accure
