import Accure.Library.Conflict

set_option autoImplicit false

namespace Conflict

variable {α : Type}

-- A chain of dependencies from an op without any, by its number of ops.
inductive Graph.Chain (graph : Graph α) : Nat → α → Prop where
  | first (x : α) (present : x ∈ graph.ops) (free : ∀ a, ¬ graph.dep a x) : graph.Chain 1 x
  | next (n : Nat) (a x : α) (before : graph.Chain n a) (dep : graph.dep a x) : graph.Chain (n + 1) x

def Graph.Depth (graph : Graph α) (n : Nat) (x : α) : Prop := graph.Chain n x ∧ ∀ m, graph.Chain m x → n ≤ m

def Graph.Deepest (graph : Graph α) (candidates : Set α) (x : α) : Prop :=
  x ∈ candidates ∧ ∀ y ∈ candidates, ∀ m n, graph.Depth m y → graph.Depth n x → m ≤ n

def Graph.Grants (graph : Graph α) (candidates : Set α) (allows : α → Prop) : Prop :=
  ∀ x, graph.Deepest candidates x → allows x

section Wins

variable (ops : Set α) (dep : α → α → Prop) (wins other : α → Prop)

theorem chain_wins (n : Nat) (x : α) (chain : Graph.Chain ⟨ops, dep, wins⟩ n x) : Graph.Chain ⟨ops, dep, other⟩ n x := by
  induction chain with
  | first x present free => exact .first x present free
  | next n a x _ dep ih => exact .next n a x ih dep

theorem depth_wins (n : Nat) (x : α) : Graph.Depth ⟨ops, dep, wins⟩ n x ↔ Graph.Depth ⟨ops, dep, other⟩ n x := by
  have chain : ∀ m, Graph.Chain ⟨ops, dep, wins⟩ m x ↔ Graph.Chain ⟨ops, dep, other⟩ m x :=
    fun m => ⟨chain_wins ops dep wins other m x, chain_wins ops dep other wins m x⟩
  simp only [Graph.Depth, chain]

theorem grants_wins (candidates : Set α) (allows : α → Prop) :
    Graph.Grants ⟨ops, dep, wins⟩ candidates allows ↔ Graph.Grants ⟨ops, dep, other⟩ candidates allows := by
  simp only [Graph.Grants, Graph.Deepest, depth_wins ops dep wins other]

end Wins

structure Graph.Graded (graph : Graph α) (rank : α → Nat) : Prop where
  closed : ∀ a b, graph.dep a b → a ∈ graph.ops ∧ b ∈ graph.ops
  first : ∀ x ∈ graph.ops, (∀ a, ¬ graph.dep a x) → rank x = 1
  next : ∀ a b, graph.dep a b → rank b = rank a + 1

section Graded

variable (graph : Graph α) (rank : α → Nat) (graded : graph.Graded rank)

include graded

theorem graded_ranked : graph.Ranked rank := by
  refine ⟨graded.closed, ?_⟩
  intro a b dep
  have step := graded.next a b dep
  omega

theorem chain_rank (n : Nat) (x : α) (chain : graph.Chain n x) : n = rank x := by
  induction chain with
  | first x present free => exact (graded.first x present free).symm
  | next n a x before dep ih => rw [graded.next a x dep, ← ih]

theorem chain_exists (bound : Nat) (x : α) (present : x ∈ graph.ops) (low : rank x < bound) :
    graph.Chain (rank x) x := by
  induction bound generalizing x with
  | zero => omega
  | succ bound ih =>
      by_cases free : ∀ a, ¬ graph.dep a x
      · rw [graded.first x present free]
        exact .first x present free
      · obtain ⟨a, dep⟩ := not_forall_not.mp free
        have step := graded.next a x dep
        rw [step]
        exact .next (rank a) a x (ih a (graded.closed a x dep).1 (by omega)) dep

theorem depth_rank (n : Nat) (x : α) (present : x ∈ graph.ops) : graph.Depth n x ↔ n = rank x := by
  constructor
  · exact fun depth => chain_rank graph rank graded n x depth.1
  · rintro rfl
    refine ⟨chain_exists graph rank graded (rank x + 1) x present (Nat.lt_succ_self _), ?_⟩
    exact fun m chain => (chain_rank graph rank graded m x chain).ge

variable (candidates : Set α) (inside : ∀ x ∈ candidates, x ∈ graph.ops)

include inside

theorem deepest_rank (x : α) :
    graph.Deepest candidates x ↔ x ∈ candidates ∧ ∀ y ∈ candidates, rank y ≤ rank x := by
  refine and_congr_right fun xIn => ?_
  have depth := fun y yIn m => depth_rank graph rank graded m y (inside y yIn)
  constructor
  · exact fun highest y yIn => highest y yIn _ _ ((depth y yIn _).mpr rfl) ((depth x xIn _).mpr rfl)
  · intro highest y yIn m n mDepth nDepth
    rw [(depth y yIn m).mp mDepth, (depth x xIn n).mp nDepth]
    exact highest y yIn

variable (valid : α → Prop) (settled : graph.Settled valid) (judged : ∀ x ∈ candidates, valid x)
variable (allows : α → Prop) (sides : ∀ x ∈ graph.ops, ∀ y ∈ graph.ops, (allows x ↔ allows y) ↔ (graph.wins x ↔ graph.wins y))

include settled judged sides

-- Valid ops of one depth are of one side, so each deepest one speaks for all.
theorem deepest_agree (x y : α) (xDeepest : graph.Deepest candidates x) (yDeepest : graph.Deepest candidates y) :
    allows x ↔ allows y := by
  obtain ⟨xIn, xHighest⟩ := (deepest_rank graph rank graded candidates inside x).mp xDeepest
  obtain ⟨yIn, yHighest⟩ := (deepest_rank graph rank graded candidates inside y).mp yDeepest
  by_contra differ
  have opposed : graph.wins y ↔ ¬ graph.wins x := by
    rw [sides x (inside x xIn) y (inside y yIn)] at differ
    tauto
  have before := top_answers graph rank (graded_ranked graph rank graded) valid settled x y (inside x xIn) (inside y yIn)
    (judged x xIn) (judged y yIn) opposed (xHighest y yIn)
  have less := (before_ends graph rank (graded_ranked graph rank graded) y x before).2.2
  exact absurd (yHighest x xIn) (by omega)

theorem grants_deepest (x : α) (deepest : graph.Deepest candidates x) : graph.Grants candidates allows ↔ allows x := by
  constructor
  · exact fun grants => grants x deepest
  · exact fun here y other => (deepest_agree graph rank graded candidates inside valid settled judged allows sides x y
      deepest other).mp here

end Graded

theorem lone_winner_undisputed (graph : Graph α) (x : α) (only : ∀ a, graph.wins a → a = x) : graph.Undisputed := by
  intro a b defeats defeated
  obtain rfl := (only a defeats.2.1).trans (only b defeated.2.1).symm
  exact absurd defeats (not_defeats_self graph a)

section Calm

def Graph.Calm (graph : Graph α) : Prop :=
  ∀ x ∈ graph.ops, ∀ y ∈ graph.ops, graph.Concurrent x y → (graph.wins x ↔ graph.wins y)

variable (graph : Graph α) (rank : α → Nat) (ranked : graph.Ranked rank) (calm : graph.Calm)

include ranked calm

theorem calm_valid (valid : α → Prop) (settled : graph.Settled valid) (bound : Nat) (x : α) (present : x ∈ graph.ops)
    (low : rank x < bound) : valid x := by
  induction bound generalizing x with
  | zero => omega
  | succ bound ih =>
      rw [settled x present]
      refine ⟨?_, ?_⟩
      · intro a dep
        have less := ranked.grows a x dep
        exact ih a (ranked.closed a x dep).1 (by omega)
      · exact fun loses y yIn wins _ concurrent => loses ((calm x present y yIn concurrent).mpr wins)

end Calm

end Conflict
