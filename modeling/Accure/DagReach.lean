import Mathlib.Algebra.BigOperators.Group.List.Lemmas
import Accure.Dag

set_option autoImplicit false

namespace Accure

def Dag.Before (dag : Dag) : Dot → Dot → Prop := Relation.TransGen (fun a b => a ∈ dag.parents b)

theorem dag_before_ends (dag : Dag) (a b : Dot) (before : dag.Before a b) : a ∈ dag.nodes ∧ b ∈ dag.nodes := by
  induction before with
  | single edge => exact dag.endpoints _ _ edge
  | tail _ edge ih => exact ⟨ih.1, (dag.endpoints _ _ edge).2⟩

theorem dag_edge_count (dag : Dag) :
    dag.edgeCount = ∑ n ∈ dag.nodes.elems.toFinset, (dag.parents n).elems.length :=
  (List.sum_toFinset _ dag.nodes.nodup).symm

theorem ancestors_total (dag : Dag) (d : Dot) : ∃ result, dag.ancestors? d = some result := by
  apply Worklist.closure_total _ dag.nodes.elems.toFinset
  · intro x _ y edge
    exact List.mem_toFinset.mpr (dag.endpoints y x edge).1
  · intro x edge
    exact List.mem_toFinset.mpr (dag.endpoints x d edge).1
  · have all : dag.nodes.elems.toFinset.filter (fun x => x ∉ (∅ : OrderedSet Dot)) = dag.nodes.elems.toFinset := by
      simp
    rw [Worklist.pending, all, dag_edge_count]

theorem before_iff_leads (dag : Dag) (x d : Dot) :
    dag.Before x d ↔ ∃ a ∈ (dag.parents d).elems, Worklist.Leads (fun y => (dag.parents y).elems) a x := by
  constructor
  · intro before
    induction before using Relation.TransGen.head_induction_on with
    | single edge => exact ⟨_, edge, Relation.ReflTransGen.refl⟩
    | head edge _ ih =>
        obtain ⟨a, near, leads⟩ := ih
        exact ⟨a, near, leads.tail edge⟩
  · rintro ⟨a, near, leads⟩
    induction leads with
    | refl => exact Relation.TransGen.single near
    | tail _ edge ih => exact Relation.TransGen.head edge ih

@[simp] theorem mem_ancestors (dag : Dag) (d x : Dot) : x ∈ dag.ancestors d ↔ dag.Before x d := by
  obtain ⟨result, completed⟩ := ancestors_total dag d
  rw [before_iff_leads, Dag.ancestors, completed, Option.getD_some]
  exact Worklist.closure_iff _ _ _ result completed x

def Dag.IsRoot (dag : Dag) (d : Dot) : Prop := d ∈ dag.nodes ∧ ∀ a, a ∉ dag.parents d

def Dag.Path (dag : Dag) : Nat → Dot → Prop := Worklist.Walk (fun x => (dag.out x).elems) dag.IsRoot

theorem path_node (dag : Dag) (length : Nat) (d : Dot) (path : dag.Path length d) : d ∈ dag.nodes := by
  cases path with
  | root _ start => exact start.1
  | step _ x _ _ edge => exact (dag.endpoints x d ((dag.converse x d).mp edge)).2

theorem mem_roots (dag : Dag) (d : Dot) : d ∈ dag.roots ↔ dag.IsRoot d := by
  rw [Dag.roots, List.mem_filter, List.isEmpty_iff, List.eq_nil_iff_forall_not_mem]
  exact Iff.rfl

def Dag.rootDistances (dag : Dag) : Dot → Option Nat :=
  dag.roots.foldl (fun dist n => Function.update dist n (some 1)) (fun _ => none)

theorem foldl_marks (rows : List Dot) (dist : Dot → Option Nat) (d : Dot) :
    rows.foldl (fun dist n => Function.update dist n (some 1)) dist d = if d ∈ rows then some 1 else dist d := by
  induction rows generalizing dist with
  | nil => rfl
  | cons head tail ih =>
      rw [List.foldl_cons, ih]
      by_cases later : d ∈ tail
      · simp [later]
      · by_cases here : d = head
        · simp [here]
        · simp [later, here]

theorem root_distances_some (dag : Dag) (d : Dot) (k : Nat) :
    dag.rootDistances d = some k ↔ k = 1 ∧ dag.IsRoot d := by
  rw [Dag.rootDistances, foldl_marks, ← mem_roots]
  by_cases member : d ∈ dag.roots
  · simp [member, eq_comm]
  · simp [member]

theorem distances_total (dag : Dag) : ∃ dist, dag.distances = some dist := by
  have known : ∀ d ∈ dag.roots, dag.rootDistances d = some 1 :=
    fun d member => (root_distances_some dag d 1).mpr ⟨rfl, (mem_roots dag d).mp member⟩
  have layered : Worklist.Layered 1 dag.rootDistances dag.roots [] := by
    refine ⟨known, by simp, ?_⟩
    intro d k reached
    have one := ((root_distances_some dag d k).mp reached).1
    omega
  have closed : ∀ x ∈ dag.nodes.elems.toFinset, ∀ y ∈ (dag.out x).elems, y ∈ dag.nodes.elems.toFinset := by
    intro x _ y edge
    exact List.mem_toFinset.mpr (dag.endpoints x y ((dag.converse x y).mp edge)).2
  have inside : ∀ d, dag.rootDistances d ≠ none → d ∈ dag.nodes.elems.toFinset := by
    intro d reached
    obtain ⟨k, value⟩ := Option.ne_none_iff_exists'.mp reached
    exact List.mem_toFinset.mpr ((root_distances_some dag d k).mp value).2.1
  have enough : (dag.roots ++ []).length + Worklist.unknown dag.nodes.elems.toFinset dag.rootDistances ≤
      dag.nodes.elems.length := by
    have rest : dag.nodes.elems.toFinset.filter (fun d => dag.rootDistances d = none) =
        (dag.nodes.elems.filter (fun n => !(dag.parents n).elems.isEmpty)).toFinset := by
      ext d
      by_cases member : d ∈ dag.nodes
      · simp [Dag.rootDistances, foldl_marks, Dag.roots, member]
      · simp [member]
    have split : Worklist.unknown dag.nodes.elems.toFinset dag.rootDistances =
        (dag.nodes.elems.filter (fun n => !(dag.parents n).elems.isEmpty)).length := by
      rw [Worklist.unknown, rest, List.toFinset_card_of_nodup (dag.nodes.nodup.filter _)]
    rw [List.append_nil, split, Dag.roots]
    have partition := List.length_eq_length_filter_add (l := dag.nodes.elems)
      (fun n => (dag.parents n).elems.isEmpty)
    omega
  have completed := Worklist.relax_total _ _ closed _ 1 dag.rootDistances dag.roots [] inside layered enough
  rwa [List.append_nil] at completed

theorem distances_spec (dag : Dag) (dist : Dot → Option Nat) (completed : dag.distances = some dist) (d : Dot) (k : Nat) :
    dist d = some k ↔ ∃ length, k = length + 1 ∧ dag.Path length d ∧ ∀ other, dag.Path other d → length ≤ other := by
  apply Worklist.relax_distance _ dag.IsRoot _ _ dag.rootDistances dist completed
  · intro x k reached
    obtain ⟨rfl, root⟩ := (root_distances_some dag x k).mp reached
    exact ⟨0, rfl, .root x root⟩
  · intro x k reached
    exact Or.inl ((mem_roots dag x).mpr ((root_distances_some dag x k).mp reached).2)
  · intro x root
    exact ⟨1, (root_distances_some dag x 1).mpr ⟨rfl, root⟩, le_refl 1⟩

theorem level_of_path (dag : Dag) (d : Dot) (length : Nat) (path : dag.Path length d)
    (least : ∀ other, dag.Path other d → length ≤ other) (member : d ∈ dag.nodes) : dag.level d = length + 1 := by
  obtain ⟨dist, completed⟩ := distances_total dag
  have value := (distances_spec dag dist completed d (length + 1)).mpr ⟨length, rfl, path, least⟩
  rw [Dag.level, if_pos member, completed, Option.getD_some, value, Option.getD_some]

-- A rank that starts at one and grows by one along every edge. When a DAG has
-- one, all paths to a node have the same length.
structure Dag.Graded (dag : Dag) (rank : Dot → Nat) : Prop where
  roots : ∀ d, dag.IsRoot d → rank d = 1
  edges : ∀ a b, a ∈ dag.parents b → rank b = rank a + 1

theorem graded_path (dag : Dag) (rank : Dot → Nat) (graded : dag.Graded rank) (length : Nat) (d : Dot)
    (path : dag.Path length d) : rank d = length + 1 := by
  induction path with
  | root x start => exact graded.roots x start
  | step length x y _ edge ih => rw [graded.edges x y ((dag.converse x y).mp edge), ih]

theorem graded_reached (dag : Dag) (rank : Dot → Nat) (graded : dag.Graded rank) (bound : Nat) (d : Dot)
    (member : d ∈ dag.nodes) (below : rank d ≤ bound) : ∃ length, dag.Path length d := by
  induction bound generalizing d with
  | zero =>
      by_cases root : ∀ a, a ∉ dag.parents d
      · exact ⟨0, .root d ⟨member, root⟩⟩
      · obtain ⟨a, edge⟩ := not_forall_not.mp root
        have step := graded.edges a d edge
        omega
  | succ bound ih =>
      by_cases root : ∀ a, a ∉ dag.parents d
      · exact ⟨0, .root d ⟨member, root⟩⟩
      · obtain ⟨a, edge⟩ := not_forall_not.mp root
        have step := graded.edges a d edge
        obtain ⟨length, path⟩ := ih a (dag.endpoints a d edge).1 (by omega)
        exact ⟨length + 1, .step length a d path ((dag.converse a d).mpr edge)⟩

theorem level_eq_rank (dag : Dag) (rank : Dot → Nat) (graded : dag.Graded rank) (d : Dot) (member : d ∈ dag.nodes) :
    dag.level d = rank d := by
  obtain ⟨length, path⟩ := graded_reached dag rank graded (rank d) d member (le_refl _)
  have value := graded_path dag rank graded length d path
  rw [value]
  apply level_of_path dag d length path _ member
  intro other otherPath
  have same := graded_path dag rank graded other d otherPath
  omega

theorem before_rank_lt (dag : Dag) (rank : Dot → Nat) (graded : dag.Graded rank) (a b : Dot)
    (before : dag.Before a b) : rank a < rank b := by
  induction before with
  | single edge => have step := graded.edges _ _ edge; omega
  | tail _ edge ih => have step := graded.edges _ _ edge; omega

theorem graded_acyclic (dag : Dag) (rank : Dot → Nat) (graded : dag.Graded rank) (d : Dot) : ¬ dag.Before d d :=
  fun before => Nat.lt_irrefl _ (before_rank_lt dag rank graded d d before)

def Dag.LongestArc (dag : Dag) (length : Nat) (d : Dot) : Prop :=
  dag.Path length d ∧ ∀ other, dag.Path other d → other ≤ length

theorem graded_longest (dag : Dag) (rank : Dot → Nat) (graded : dag.Graded rank) (d : Dot) (member : d ∈ dag.nodes) :
    ∃ length, dag.LongestArc length d ∧ dag.level d = length + 1 := by
  obtain ⟨length, path⟩ := graded_reached dag rank graded (rank d) d member (le_refl _)
  have value := graded_path dag rank graded length d path
  refine ⟨length, ⟨path, ?_⟩, (level_eq_rank dag rank graded d member).trans value⟩
  intro other otherPath
  have same := graded_path dag rank graded other d otherPath
  omega

theorem level_le_max (dag : Dag) (d : Dot) (member : d ∈ dag.nodes) : dag.level d ≤ dag.maxLevel := by
  have bound : ∀ rows : List Nat, ∀ k ∈ rows, k ≤ rows.foldr max 0 := by
    intro rows
    induction rows with
    | nil => simp
    | cons head tail ih =>
        intro k present
        rcases List.mem_cons.mp present with same | later
        · rw [same]
          exact le_max_left head _
        · exact (ih k later).trans (le_max_right head _)
  exact bound _ _ (List.mem_map_of_mem member)

theorem max_level_attained (dag : Dag) (positive : dag.maxLevel ≠ 0) : ∃ d ∈ dag.nodes, dag.level d = dag.maxLevel := by
  have attained : ∀ rows : List Nat, rows.foldr max 0 ≠ 0 → rows.foldr max 0 ∈ rows := by
    intro rows
    induction rows with
    | nil => simp
    | cons head tail ih =>
        intro nonzero
        rw [List.foldr_cons] at nonzero ⊢
        rcases le_total head (tail.foldr max 0) with below | above
        · rw [max_eq_right below] at nonzero ⊢
          exact List.mem_cons_of_mem head (ih nonzero)
        · rw [max_eq_left above]
          exact List.mem_cons_self
  obtain ⟨d, member, value⟩ := List.mem_map.mp (attained _ positive)
  exact ⟨d, member, value⟩

end Accure
