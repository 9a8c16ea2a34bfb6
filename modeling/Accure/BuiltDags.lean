import Accure.PolicyGraph

set_option autoImplicit false

namespace Accure

inductive DagCall where
  | addNode (d : Dot)
  | addEdge (dep op : Dot)

def Dag.call (dag : Dag) : DagCall → Dag
  | .addNode d => dag.addNode d
  | .addEdge dep op => dag.addEdge dep op

def Dag.build (calls : List DagCall) : Dag := calls.foldl Dag.call Dag.new

theorem call_parents (dag : Dag) (call : DagCall) (a b : Dot) :
    a ∈ (dag.call call).parents b ↔ call = .addEdge a b ∨ a ∈ dag.parents b := by
  cases call with
  | addNode d => simp [Dag.call, Dag.addNode]
  | addEdge dep op =>
      simp only [Dag.call, Dag.addEdge, mem_add_to, DagCall.addEdge.injEq]
      refine or_congr ?_ Iff.rfl
      rw [and_comm, eq_comm, eq_comm (a := b)]

theorem build_parents (calls : List DagCall) (a b : Dot) :
    a ∈ (Dag.build calls).parents b ↔ .addEdge a b ∈ calls := by
  have fold : ∀ dag : Dag,
      a ∈ (calls.foldl Dag.call dag).parents b ↔ .addEdge a b ∈ calls ∨ a ∈ dag.parents b := by
    induction calls with
    | nil => simp
    | cons call tail ih =>
        intro dag
        rw [List.foldl_cons, ih, call_parents, List.mem_cons, eq_comm, or_left_comm, or_assoc]
  rw [Dag.build, fold]
  exact or_iff_left (OrderedSet.not_mem_empty a)

def Dag.Shortest (dag : Dag) (length : Nat) (d : Dot) : Prop :=
  dag.Path length d ∧ ∀ other, dag.Path other d → length ≤ other

theorem level_shortest (dag : Dag) (length : Nat) (d : Dot) : dag.level d = length + 1 ↔ dag.Shortest length d := by
  constructor
  · intro level
    obtain ⟨dist, completed⟩ := distances_total dag
    rw [Dag.level, completed, Option.getD_some] at level
    by_cases member : d ∈ dag.nodes
    · rw [if_pos member] at level
      cases known : dist d with
      | none => simp [known] at level
      | some k =>
          obtain ⟨least, rfl, path⟩ := (distances_spec dag dist completed d k).mp known
          have same : least = length := by simpa [known] using level
          exact same ▸ path
    · simp [member] at level
  · rintro ⟨path, least⟩
    exact level_of_path dag d length path least (path_node dag length d path)

theorem level_zero (dag : Dag) (d : Dot) : dag.level d = 0 ↔ ∀ length, ¬ dag.Path length d := by
  constructor
  · intro level length path
    obtain ⟨least, shortest⟩ := Worklist.shortest_exists _ _ length d path
    have positive := (level_shortest dag least d).mpr shortest
    omega
  · intro unreached
    cases level : dag.level d with
    | zero => rfl
    | succ length => exact absurd ((level_shortest dag length d).mp level).1 (unreached length)

theorem level_le_count (dag : Dag) (d : Dot) : dag.level d ≤ dag.nodes.elems.length := by
  cases level : dag.level d with
  | zero => exact Nat.zero_le _
  | succ length =>
      have shortest := (level_shortest dag length d).mp level
      have below := Worklist.shortest_lt_card _ _ dag.nodes.elems.toFinset
        (fun other x path => List.mem_toFinset.mpr (path_node dag other x path)) length d shortest
      rwa [List.toFinset_card_of_nodup dag.nodes.nodup] at below

theorem mem_at_level (dag : Dag) (lvl : Nat) (d : Dot) :
    d ∈ dag.atLevel lvl ↔ d ∈ dag.nodes ∧ dag.level d = lvl := by
  simp [Dag.atLevel]

-- Levels are distances from the parentless nodes, and they part the nodes.
theorem build_level (calls : List DagCall) (d : Dot) :
    (∃ dist, (Dag.build calls).distances = some dist) ∧
    ((Dag.build calls).level d = 0 ↔
      d ∉ (Dag.build calls).nodes ∨ ∀ length, ¬ (Dag.build calls).Path length d) ∧
    (∀ length, (Dag.build calls).level d = length + 1 ↔ (Dag.build calls).Shortest length d) ∧
    (∀ length, d ∈ (Dag.build calls).atLevel (length + 1) ↔ (Dag.build calls).Shortest length d) ∧
    (d ∈ (Dag.build calls).atLevel 0 ↔
      d ∈ (Dag.build calls).nodes ∧ ∀ length, ¬ (Dag.build calls).Path length d) ∧
    (d ∈ (Dag.build calls).nodes ↔ ∃! lvl, lvl ≤ (Dag.build calls).maxLevel ∧ d ∈ (Dag.build calls).atLevel lvl) ∧
    ((Dag.build calls).maxLevel = 0 ∨ (Dag.build calls).atLevel (Dag.build calls).maxLevel ≠ []) := by
  generalize Dag.build calls = dag
  refine ⟨distances_total dag, ?_, fun length => level_shortest dag length d, ?_, ?_, ?_, ?_⟩
  · rw [level_zero]
    refine ⟨Or.inr, ?_⟩
    rintro (absent | unreached)
    · exact fun length path => absent (path_node dag length d path)
    · exact unreached
  · intro length
    rw [mem_at_level, level_shortest]
    exact ⟨And.right, fun shortest => ⟨path_node dag length d shortest.1, shortest⟩⟩
  · rw [mem_at_level, level_zero]
  · constructor
    · intro member
      refine ⟨dag.level d, ⟨level_le_max dag d member, (mem_at_level dag _ d).mpr ⟨member, rfl⟩⟩, ?_⟩
      rintro lvl ⟨_, here⟩
      exact ((mem_at_level dag lvl d).mp here).2.symm
    · rintro ⟨lvl, ⟨_, here⟩, _⟩
      exact ((mem_at_level dag lvl d).mp here).1
  · by_cases empty : dag.maxLevel = 0
    · exact Or.inl empty
    · obtain ⟨x, member, level⟩ := max_level_attained dag empty
      exact Or.inr (List.ne_nil_of_mem ((mem_at_level dag _ x).mpr ⟨member, level⟩))

-- A root, a cycle below it and a cycle that no root reaches.
example : [⟨"A", 1⟩, ⟨"A", 2⟩, ⟨"A", 3⟩, ⟨"B", 1⟩].map (Dag.build [
      .addEdge ⟨"A", 1⟩ ⟨"A", 2⟩, .addEdge ⟨"A", 2⟩ ⟨"A", 3⟩, .addEdge ⟨"A", 3⟩ ⟨"A", 2⟩,
      .addEdge ⟨"B", 1⟩ ⟨"B", 1⟩]).level = [1, 2, 3, 0] := by decide +kernel

theorem build_ancestors (calls : List DagCall) (d : Dot) :
    (∃ result, (Dag.build calls).ancestors? d = some result ∧
      ∀ x, x ∈ result ↔ Relation.TransGen (fun a b => .addEdge a b ∈ calls) x d) ∧
    ∀ (s : State) (p q : PolicyOp), p.dot ∈ (Dag.build calls).nodes → q.dot ∈ (Dag.build calls).nodes →
      s.policyOp p.dot = some p → s.policyOp q.dot = some q →
      (q ∈ conflicts s p (Dag.build calls) ↔ p ∈ conflicts s q (Dag.build calls)) := by
  constructor
  · obtain ⟨result, completed⟩ := ancestors_total (Dag.build calls) d
    refine ⟨result, completed, ?_⟩
    intro x
    have member := mem_ancestors (Dag.build calls) d x
    rw [Dag.ancestors, completed, Option.getD_some] at member
    have edges : (fun a b => a ∈ (Dag.build calls).parents b) = fun a b => .addEdge a b ∈ calls := by
      funext a b
      exact propext (build_parents calls a b)
    rw [member, Dag.Before, edges]
  · intro s p q pIn qIn pFound qFound
    rw [conflicts_iff, conflicts_iff]
    constructor
    · rintro ⟨_, _, different, above, below, disagree⟩
      exact ⟨pIn, pFound, Ne.symm different, below, above, Ne.symm disagree⟩
    · rintro ⟨_, _, different, above, below, disagree⟩
      exact ⟨qIn, qFound, Ne.symm different, below, above, Ne.symm disagree⟩

def granted : PolicyOp := ⟨⟨"A", 1⟩, "C", .write, .allow, [], none, []⟩

def revoked : PolicyOp := ⟨⟨"B", 1⟩, "C", .write, .deny, [], none, []⟩

def disputed : State := { State.new "A" .integrity with log := [.policy granted, .policy revoked] }

def disputedCalls : List DagCall :=
  [.addNode granted.dot, .addEdge ⟨"D", 1⟩ ⟨"D", 2⟩, .addEdge ⟨"D", 2⟩ ⟨"D", 1⟩, .addNode revoked.dot]

theorem disputed_conflict : revoked ∈ conflicts disputed granted (Dag.build disputedCalls) ↔
    granted ∈ conflicts disputed revoked (Dag.build disputedCalls) :=
  (build_ancestors disputedCalls granted.dot).2 disputed granted revoked (by decide +kernel) (by decide +kernel)
    (by decide +kernel) (by decide +kernel)

end Accure
