import Accure.Causal

set_option autoImplicit false

namespace Accure

structure GradedGraphs (s : State) : Prop where
  nodes : ∀ t d, d ∈ (s.dagAt t).nodes ↔ ∃ p, .policy p ∈ s.log ∧ p.tuple = t ∧ p.dot = d
  edges : ∀ p, .policy p ∈ s.log → ∀ a, a ∈ (s.dagAt p.tuple).parents p.dot ↔ a ∈ p.deps
  closed : ∀ before p after, s.log = before ++ .policy p :: after → ∀ a ∈ p.deps,
    ∃ q, .policy q ∈ before ∧ q.tuple = p.tuple ∧ q.dot = a
  levels : ∀ t dep op, dep ∈ (s.dagAt t).parents op → (s.dagAt t).level op = (s.dagAt t).level dep + 1
  acyclic : ∀ t d, d ∉ (s.dagAt t).ancestors d
  paths : ∀ t d length, (s.dagAt t).Path length d → (s.dagAt t).level d = length + 1
  arcs : ∀ t, ∀ d ∈ (s.dagAt t).nodes, ∃ length, (s.dagAt t).LongestArc length d ∧ (s.dagAt t).level d = length + 1
  ancestors : ∀ t d, ∀ a ∈ (s.dagAt t).ancestors d, (s.dagAt t).level a < (s.dagAt t).level d

section Graded

variable (rank : Dot → Nat) (s : State) (consistent : Consistent rank s)

include consistent

theorem dep_precedes (before after : List Operation) (p : PolicyOp) (split : s.log = before ++ .policy p :: after)
    (a : Dot) (dep : a ∈ p.deps) : ∃ q, .policy q ∈ before ∧ q.tuple = p.tuple ∧ q.dot = a := by
  obtain ⟨q, earlier, dot⟩ := dep_earlier rank s consistent.wired before after p split a dep
  obtain ⟨r, rIn, tuple, rDot⟩ := consistent.deps p (split ▸ by simp) a dep
  have qIn : .policy q ∈ s.log := split ▸ List.mem_append_left _ earlier
  have same := other_tuple_dot s consistent.nodup q r qIn rIn (dot.trans rDot.symm)
  exact ⟨q, earlier, same.trans tuple, dot⟩

theorem edge_level (t : AccessTuple) (dep op : Dot) (edge : dep ∈ (s.dagAt t).parents op) :
    (s.dagAt t).level op = (s.dagAt t).level dep + 1 := by
  have ends := (s.dagAt t).endpoints dep op edge
  rw [level_rank rank s consistent t op ends.2, level_rank rank s consistent t dep ends.1]
  exact (dag_graded rank s consistent t).edges dep op edge

theorem path_level (t : AccessTuple) (d : Dot) (length : Nat) (path : (s.dagAt t).Path length d) :
    (s.dagAt t).level d = length + 1 :=
  (level_rank rank s consistent t d (path_node _ length d path)).trans
    (graded_path _ rank (dag_graded rank s consistent t) length d path)

theorem ancestor_level (t : AccessTuple) (d a : Dot) (ancestor : a ∈ (s.dagAt t).ancestors d) :
    (s.dagAt t).level a < (s.dagAt t).level d := by
  have before := (mem_ancestors _ d a).mp ancestor
  have ends := dag_before_ends _ a d before
  rw [level_rank rank s consistent t a ends.1, level_rank rank s consistent t d ends.2]
  exact before_rank_lt _ rank (dag_graded rank s consistent t) a d before

theorem consistent_graded : GradedGraphs s := by
  constructor
  · exact consistent.nodes
  · exact parents_of_op rank s consistent.wired
  · exact fun before p after => dep_precedes rank s consistent before after p
  · exact edge_level rank s consistent
  · intro t d ancestor
    exact graded_acyclic _ rank (dag_graded rank s consistent t) d ((mem_ancestors _ d d).mp ancestor)
  · exact path_level rank s consistent
  · exact fun t d node => graded_longest _ rank (dag_graded rank s consistent t) d node
  · exact ancestor_level rank s consistent

end Graded

theorem graphs_graded (strategies : SiteId → Strategy) (w : World) (run : Reachable CausalSync strategies w) (i : SiteId) :
    GradedGraphs (w.site i).state := by
  obtain ⟨rank, grounded⟩ := grounded_run strategies w run
  exact consistent_graded rank _ (grounded.sound i).toConsistent

def mixed (i : SiteId) : Strategy := if i = "A" then .accessibility else .integrity

def ladder : List Action :=
  [.policy "A" "C" .write .allow, .policy "A" "C" .write .deny, .sync "B" "A" [⟨"A", 1⟩, ⟨"A", 2⟩], .rebuild "B",
    .policy "B" "C" .write .allow, .sync "A" "B" [⟨"A", 1⟩, ⟨"A", 2⟩, ⟨"B", 1⟩], .rebuild "A"]

theorem ladder_runs : ((World.init mixed).play ladder).isSome = true := by decide +kernel

def ladderWorld : World := ((World.init mixed).play ladder).get ladder_runs

theorem ladder_graded : GradedGraphs (ladderWorld.site "A").state ∧
    ((ladderWorld.site "A").state.dagAt ⟨"C", .write⟩).level ⟨"B", 1⟩ = 3 :=
  ⟨graphs_graded mixed ladderWorld (play_reachable mixed ladder _ _ .init (Option.some_get ladder_runs).symm) "A",
    by decide +kernel⟩

end Accure
