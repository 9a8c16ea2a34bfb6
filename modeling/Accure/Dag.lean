import Accure.Library.Worklist
import Accure.Op
import Mathlib.Algebra.Ring.Nat

set_option autoImplicit false

namespace Accure

-- The maps of the source never hold an empty set, so an absent key and a key
-- with no edges are the same thing, here an empty value. The last two fields
-- are what add_node and add_edge maintain between the three collections.
structure Dag where
  nodes : OrderedSet Dot
  out : Dot → OrderedSet Dot
  parents : Dot → OrderedSet Dot
  converse : ∀ dep op, op ∈ out dep ↔ dep ∈ parents op
  endpoints : ∀ dep op, dep ∈ parents op → dep ∈ nodes ∧ op ∈ nodes

theorem dag_ext (a b : Dag) (nodes : ∀ d, d ∈ a.nodes ↔ d ∈ b.nodes)
    (parents : ∀ d e, d ∈ a.parents e ↔ d ∈ b.parents e) : a = b := by
  cases a with
  | mk aNodes aOut aParents aConverse aEnds =>
      cases b with
      | mk bNodes bOut bParents bConverse bEnds =>
          have sameNodes : aNodes = bNodes := OrderedSet.ext _ _ nodes
          have sameParents : aParents = bParents := funext fun e => OrderedSet.ext _ _ (fun d => parents d e)
          have sameOut : aOut = bOut := by
            funext d
            apply OrderedSet.ext
            intro e
            rw [aConverse d e, bConverse d e, sameParents]
          subst sameNodes sameParents sameOut
          rfl

def Dag.new : Dag := ⟨∅, fun _ => ∅, fun _ => ∅, by simp, by simp⟩

def Dag.addNode (dag : Dag) (d : Dot) : Dag where
  nodes := dag.nodes.insert d
  out := dag.out
  parents := dag.parents
  converse := dag.converse
  endpoints dep op edge := by
    have ends := dag.endpoints dep op edge
    simp [ends]

def addTo (map : Dot → OrderedSet Dot) (key value : Dot) : Dot → OrderedSet Dot :=
  Function.update map key ((map key).insert value)

theorem mem_add_to (map : Dot → OrderedSet Dot) (key value other x : Dot) :
    x ∈ addTo map key value other ↔ (other = key ∧ x = value) ∨ x ∈ map other := by
  by_cases same : other = key
  · subst same
    simp [addTo]
  · simp [addTo, same]

def Dag.addEdge (dag : Dag) (dep op : Dot) : Dag where
  nodes := (dag.nodes.insert dep).insert op
  out := addTo dag.out dep op
  parents := addTo dag.parents op dep
  converse a b := by
    rw [mem_add_to, mem_add_to, dag.converse a b]
    tauto
  endpoints a b edge := by
    rcases (mem_add_to dag.parents op dep b a).mp edge with ⟨rfl, rfl⟩ | old
    · simp
    · have ends := dag.endpoints a b old
      simp [ends]

def Dag.edgeCount (dag : Dag) : Nat := (dag.nodes.elems.map (fun n => (dag.parents n).elems.length)).sum

def Dag.ancestors? (dag : Dag) (d : Dot) : Option (OrderedSet Dot) :=
  Worklist.closure (fun x => (dag.parents x).elems) ((dag.parents d).elems.length + dag.edgeCount)
    (dag.parents d).elems ∅

def Dag.ancestors (dag : Dag) (d : Dot) : OrderedSet Dot := (dag.ancestors? d).getD ∅

def Dag.roots (dag : Dag) : List Dot := dag.nodes.elems.filter (fun n => (dag.parents n).elems.isEmpty)

def Dag.distances (dag : Dag) : Option (Dot → Option Nat) :=
  Worklist.relax (fun x => (dag.out x).elems) dag.nodes.elems.length dag.roots
    (dag.roots.foldl (fun dist n => Function.update dist n (some 1)) (fun _ => none))

def Dag.level (dag : Dag) (d : Dot) : Nat :=
  if d ∈ dag.nodes then ((dag.distances.getD (fun _ => none)) d).getD 0 else 0

def Dag.maxLevel (dag : Dag) : Nat := (dag.nodes.elems.map dag.level).foldr max 0

def Dag.atLevel (dag : Dag) (lvl : Nat) : List Dot := dag.nodes.elems.filter (fun n => dag.level n = lvl)

end Accure
