import Mathlib.Algebra.BigOperators.Group.Finset.Basic
import Mathlib.Data.Nat.Find
import Mathlib.Logic.Relation
import Accure.Library.OrderedSet

set_option autoImplicit false

namespace Worklist

variable {α : Type} [LinearOrder α]

-- The queue loop of a transitive closure. The optional result is none only
-- when the fuel ran out with work left; closure_total says how much is enough.
def closure (next : α → List α) : Nat → List α → OrderedSet α → Option (OrderedSet α)
  | _, [], out => some out
  | 0, _ :: _, _ => none
  | fuel + 1, x :: queue, out =>
      if x ∈ out then closure next fuel queue out
      else closure next fuel (queue ++ next x) (out.insert x)

def Leads (next : α → List α) : α → α → Prop := Relation.ReflTransGen (fun a b => b ∈ next a)

def pending (next : α → List α) (region : Finset α) (out : OrderedSet α) : Nat :=
  ∑ x ∈ region.filter (fun x => x ∉ out), (next x).length

theorem pending_insert (next : α → List α) (region : Finset α) (out : OrderedSet α) (x : α)
    (inside : x ∈ region) (fresh : x ∉ out) :
    pending next region (out.insert x) + (next x).length = pending next region out := by
  have rest : region.filter (fun y => y ∉ out.insert x) = (region.filter (fun y => y ∉ out)).erase x := by
    ext y
    simp only [Finset.mem_filter, Finset.mem_erase, OrderedSet.mem_insert]
    tauto
  rw [pending, rest]
  exact Finset.sum_erase_add _ _ (Finset.mem_filter.mpr ⟨inside, fresh⟩)

theorem closure_total (next : α → List α) (region : Finset α)
    (closed : ∀ x ∈ region, ∀ y ∈ next x, y ∈ region) (fuel : Nat) (queue : List α) (out : OrderedSet α)
    (inside : ∀ x ∈ queue, x ∈ region) (enough : queue.length + pending next region out ≤ fuel) :
    ∃ result, closure next fuel queue out = some result := by
  induction fuel generalizing queue out with
  | zero =>
      cases queue with
      | nil => exact ⟨out, rfl⟩
      | cons x tail => simp at enough
  | succ fuel ih =>
      cases queue with
      | nil => exact ⟨out, rfl⟩
      | cons x tail =>
          have tailInside : ∀ y ∈ tail, y ∈ region := fun y member => inside y (by simp [member])
          rw [List.length_cons] at enough
          by_cases seen : x ∈ out
          · rw [closure, if_pos seen]
            exact ih tail out tailInside (by omega)
          · rw [closure, if_neg seen]
            have paid := pending_insert next region out x (inside x (by simp)) seen
            apply ih
            · intro y member
              rcases List.mem_append.mp member with old | fresh
              · exact tailInside y old
              · exact closed x (inside x (by simp)) y fresh
            · rw [List.length_append]
              omega

theorem closure_sound (next : α → List α) (fuel : Nat) (queue : List α) (out result : OrderedSet α)
    (completed : closure next fuel queue out = some result) (x : α) (member : x ∈ result) :
    x ∈ out ∨ ∃ a ∈ queue, Leads next a x := by
  induction fuel generalizing queue out with
  | zero =>
      cases queue with
      | nil => exact Or.inl (Option.some.inj completed ▸ member)
      | cons a tail => simp [closure] at completed
  | succ fuel ih =>
      cases queue with
      | nil => exact Or.inl (Option.some.inj completed ▸ member)
      | cons a tail =>
          by_cases seen : a ∈ out
          · rw [closure, if_pos seen] at completed
            rcases ih tail out completed with old | ⟨b, later, leads⟩
            · exact Or.inl old
            · exact Or.inr ⟨b, by simp [later], leads⟩
          · rw [closure, if_neg seen] at completed
            rcases ih (tail ++ next a) (out.insert a) completed with old | ⟨b, later, leads⟩
            · rcases (OrderedSet.mem_insert a x out).mp old with same | older
              · exact Or.inr ⟨a, by simp, same ▸ Relation.ReflTransGen.refl⟩
              · exact Or.inl older
            · rcases List.mem_append.mp later with queued | fresh
              · exact Or.inr ⟨b, by simp [queued], leads⟩
              · exact Or.inr ⟨a, by simp, Relation.ReflTransGen.head fresh leads⟩

theorem covered_nil (next : α → List α) (out : OrderedSet α)
    (covered : ∀ x ∈ out, ∀ y ∈ next x, y ∈ out ∨ y ∈ ([] : List α)) :
    (∀ x ∈ out, x ∈ out) ∧ (∀ x ∈ ([] : List α), x ∈ out) ∧ (∀ x ∈ out, ∀ y ∈ next x, y ∈ out) := by
  refine ⟨fun _ member => member, nofun, ?_⟩
  intro x member y edge
  exact (covered x member y edge).resolve_right List.not_mem_nil

-- Everything in the accumulator has its successors in the accumulator or in
-- the queue, so an empty queue leaves the accumulator closed.
theorem closure_complete (next : α → List α) (fuel : Nat) (queue : List α) (out result : OrderedSet α)
    (completed : closure next fuel queue out = some result)
    (covered : ∀ x ∈ out, ∀ y ∈ next x, y ∈ out ∨ y ∈ queue) :
    (∀ x ∈ out, x ∈ result) ∧ (∀ x ∈ queue, x ∈ result) ∧ (∀ x ∈ result, ∀ y ∈ next x, y ∈ result) := by
  induction fuel generalizing queue out with
  | zero =>
      cases queue with
      | nil =>
          have same := Option.some.inj completed
          subst same
          exact covered_nil next out covered
      | cons a tail => simp [closure] at completed
  | succ fuel ih =>
      cases queue with
      | nil =>
          have same := Option.some.inj completed
          subst same
          exact covered_nil next out covered
      | cons a tail =>
          by_cases seen : a ∈ out
          · rw [closure, if_pos seen] at completed
            have tailCovered : ∀ x ∈ out, ∀ y ∈ next x, y ∈ out ∨ y ∈ tail := by
              intro x member y edge
              rcases covered x member y edge with old | queued
              · exact Or.inl old
              · rcases List.mem_cons.mp queued with same | later
                · exact Or.inl (same ▸ seen)
                · exact Or.inr later
            obtain ⟨kept, drained, stable⟩ := ih tail out completed tailCovered
            refine ⟨kept, ?_, stable⟩
            intro x queued
            rcases List.mem_cons.mp queued with same | later
            · exact same ▸ kept a seen
            · exact drained x later
          · rw [closure, if_neg seen] at completed
            have grownCovered : ∀ x ∈ out.insert a, ∀ y ∈ next x, y ∈ out.insert a ∨ y ∈ tail ++ next a := by
              intro x member y edge
              rcases (OrderedSet.mem_insert a x out).mp member with same | older
              · exact Or.inr (by simp [same ▸ edge])
              · rcases covered x older y edge with old | queued
                · exact Or.inl (by simp [old])
                · rcases List.mem_cons.mp queued with same | later
                  · exact Or.inl (by simp [same])
                  · exact Or.inr (by simp [later])
            obtain ⟨kept, drained, stable⟩ := ih (tail ++ next a) (out.insert a) completed grownCovered
            refine ⟨fun x member => kept x (by simp [member]), ?_, stable⟩
            intro x queued
            rcases List.mem_cons.mp queued with same | later
            · exact kept x (by simp [same])
            · exact drained x (by simp [later])

theorem closure_iff (next : α → List α) (fuel : Nat) (queue : List α) (result : OrderedSet α)
    (completed : closure next fuel queue ∅ = some result) (x : α) :
    x ∈ result ↔ ∃ a ∈ queue, Leads next a x := by
  constructor
  · intro member
    exact (closure_sound next fuel queue ∅ result completed x member).resolve_left (by simp)
  · rintro ⟨a, queued, leads⟩
    obtain ⟨_, drained, stable⟩ := closure_complete next fuel queue ∅ result completed (by simp)
    induction leads with
    | refl => exact drained a queued
    | tail _ edge ih => exact stable _ ih _ edge

inductive Walk (next : α → List α) (root : α → Prop) : Nat → α → Prop where
  | root (x : α) (start : root x) : Walk next root 0 x
  | step (length : Nat) (x y : α) (previous : Walk next root length x) (edge : y ∈ next x) :
      Walk next root (length + 1) y

def relaxEdge (near : Nat) (work : (α → Option Nat) × List α) (child : α) : (α → Option Nat) × List α :=
  let closer := match work.1 child with
    | none => true
    | some known => decide (near + 1 < known)
  if closer then (Function.update work.1 child (some (near + 1)), work.2 ++ [child]) else work

-- The relaxation loop. Besides running out of fuel, the result is none when a
-- queued element has no distance, which the source reads by an indexing that panics.
def relax (next : α → List α) : Nat → List α → (α → Option Nat) → Option (α → Option Nat)
  | _, [], dist => some dist
  | 0, _ :: _, _ => none
  | fuel + 1, x :: queue, dist =>
      match dist x with
      | none => none
      | some near =>
          let work := (next x).foldl (relaxEdge near) (dist, queue)
          relax next fuel work.2 work.1

def Sound (next : α → List α) (root : α → Prop) (dist : α → Option Nat) : Prop :=
  ∀ x k, dist x = some k → ∃ length, k = length + 1 ∧ Walk next root length x

def Reaches (dist : α → Option Nat) (bound : Nat) (x : α) : Prop := ∃ k, dist x = some k ∧ k ≤ bound

def Covered (next : α → List α) (dist : α → Option Nat) (queue : List α) : Prop :=
  ∀ x k, dist x = some k → x ∈ queue ∨ ∀ y ∈ next x, Reaches dist (k + 1) y

theorem relax_edge_cases (near : Nat) (work : (α → Option Nat) × List α) (child : α) :
    (relaxEdge near work child = work ∧ Reaches work.1 (near + 1) child) ∨
      (relaxEdge near work child = (Function.update work.1 child (some (near + 1)), work.2 ++ [child]) ∧
        ∀ k, work.1 child = some k → near + 1 < k) := by
  cases known : work.1 child with
  | none => exact Or.inr ⟨by simp [relaxEdge, known], by simp⟩
  | some k =>
      by_cases closer : near + 1 < k
      · refine Or.inr ⟨by simp [relaxEdge, known, closer], ?_⟩
        intro other same
        exact Option.some.inj same ▸ closer
      · exact Or.inl ⟨by simp [relaxEdge, known, closer], k, known, by omega⟩

structure Relaxed (near : Nat) (children : List α) (before after : (α → Option Nat) × List α) : Prop where
  kept : ∀ bound y, Reaches before.1 bound y → Reaches after.1 bound y
  changed : ∀ y, after.1 y = before.1 y ∨ (after.1 y = some (near + 1) ∧ y ∈ after.2 ∧ y ∈ children)
  queued : ∀ y ∈ before.2, y ∈ after.2
  settled : ∀ y ∈ children, Reaches after.1 (near + 1) y

theorem relax_edge_relaxed (near : Nat) (work : (α → Option Nat) × List α) (child : α) :
    Relaxed near [child] work (relaxEdge near work child) := by
  rcases relax_edge_cases near work child with ⟨same, reached⟩ | ⟨fresh, above⟩
  · rw [same]
    exact ⟨fun _ _ known => known, fun _ => Or.inl rfl, fun _ member => member, by simpa using reached⟩
  · rw [fresh]
    have here : Reaches (Function.update work.1 child (some (near + 1))) (near + 1) child :=
      ⟨near + 1, by simp, le_refl _⟩
    refine ⟨?_, ?_, fun y member => by simp [member], by simpa using here⟩
    · rintro bound y ⟨k, known, below⟩
      by_cases hit : y = child
      · subst hit
        exact ⟨near + 1, by simp, by have := above k known; omega⟩
      · exact ⟨k, by simpa [Function.update_of_ne hit] using known, below⟩
    · intro y
      by_cases hit : y = child
      · subst hit
        exact Or.inr (by simp)
      · exact Or.inl (Function.update_of_ne hit _ _)

theorem relax_edges_relaxed (near : Nat) (children : List α) (work : (α → Option Nat) × List α) :
    Relaxed near children work (children.foldl (relaxEdge near) work) := by
  induction children generalizing work with
  | nil => exact ⟨fun _ _ known => known, fun _ => Or.inl rfl, fun _ member => member, by simp⟩
  | cons child tail ih =>
      have first := relax_edge_relaxed near work child
      have rest := ih (relaxEdge near work child)
      rw [List.foldl_cons]
      refine ⟨fun bound y known => rest.kept bound y (first.kept bound y known), ?_,
        fun y member => rest.queued y (first.queued y member), ?_⟩
      · intro y
        rcases rest.changed y with same | ⟨known, member, later⟩
        · rcases first.changed y with before | ⟨known, member, here⟩
          · exact Or.inl (same.trans before)
          · exact Or.inr ⟨same.trans known, rest.queued y member, by simp_all⟩
        · exact Or.inr ⟨known, member, by simp [later]⟩
      · intro y member
        rcases List.mem_cons.mp member with same | later
        · exact rest.kept (near + 1) y (same ▸ first.settled child (by simp))
        · exact rest.settled y later

omit [LinearOrder α] in
theorem relaxed_sound (next : α → List α) (root : α → Prop) (near : Nat) (x : α)
    (before after : (α → Option Nat) × List α) (sound : Sound next root before.1)
    (known : before.1 x = some near) (relaxed : Relaxed near (next x) before after) :
    Sound next root after.1 := by
  intro y k reached
  rcases relaxed.changed y with same | ⟨fresh, _, edge⟩
  · exact sound y k (same.symm.trans reached)
  · obtain ⟨length, nearEq, walk⟩ := sound x near known
    have value : k = near + 1 := Option.some.inj (reached.symm.trans fresh)
    exact ⟨length + 1, by omega, .step length x y walk edge⟩

theorem relaxed_covered (next : α → List α) (near : Nat) (x : α) (queue : List α)
    (dist : α → Option Nat) (after : (α → Option Nat) × List α) (covered : Covered next dist (x :: queue))
    (known : dist x = some near) (relaxed : Relaxed near (next x) (dist, queue) after) :
    Covered next after.1 after.2 := by
  intro y k reached
  rcases relaxed.changed y with same | ⟨_, member, _⟩
  · have before : dist y = some k := same.symm.trans reached
    by_cases hit : y = x
    · have nearEq : near = k := Option.some.inj (known.symm.trans (hit ▸ before))
      exact Or.inr (fun z edge => nearEq ▸ relaxed.settled z (hit ▸ edge))
    · rcases covered y k before with queued | settled
      · exact Or.inl (relaxed.queued y ((List.mem_cons.mp queued).resolve_left hit))
      · exact Or.inr (fun z edge => relaxed.kept (k + 1) z (settled z edge))
  · exact Or.inl member

omit [LinearOrder α] in
theorem relaxed_inside (region : Finset α) (near : Nat) (children : List α)
    (before after : (α → Option Nat) × List α) (relaxed : Relaxed near children before after)
    (inside : ∀ x, before.1 x ≠ none → x ∈ region) (closed : ∀ y ∈ children, y ∈ region) :
    ∀ x, after.1 x ≠ none → x ∈ region := by
  intro x reached
  rcases relaxed.changed x with same | ⟨_, _, edge⟩
  · exact inside x (fun absent => reached (same.trans absent))
  · exact closed x edge

theorem relax_invariant (next : α → List α) (root : α → Prop) (fuel : Nat) (queue : List α)
    (dist result : α → Option Nat) (completed : relax next fuel queue dist = some result)
    (sound : Sound next root dist) (covered : Covered next dist queue) :
    Sound next root result ∧ Covered next result [] ∧ ∀ bound x, Reaches dist bound x → Reaches result bound x := by
  induction fuel generalizing queue dist with
  | zero =>
      cases queue with
      | nil =>
          have same := Option.some.inj completed
          subst same
          exact ⟨sound, covered, fun _ _ reached => reached⟩
      | cons x tail => simp [relax] at completed
  | succ fuel ih =>
      cases queue with
      | nil =>
          have same := Option.some.inj completed
          subst same
          exact ⟨sound, covered, fun _ _ reached => reached⟩
      | cons x tail =>
          cases known : dist x with
          | none => simp [relax, known] at completed
          | some near =>
              simp only [relax, known] at completed
              have relaxed := relax_edges_relaxed near (next x) (dist, tail)
              obtain ⟨finalSound, finalCovered, kept⟩ := ih _ _ completed
                (relaxed_sound next root near x (dist, tail) _ sound known relaxed)
                (relaxed_covered next near x tail dist _ covered known relaxed)
              exact ⟨finalSound, finalCovered, fun bound y reached => kept bound y (relaxed.kept bound y reached)⟩

omit [LinearOrder α] in
theorem covered_walk (next : α → List α) (root : α → Prop) (dist : α → Option Nat)
    (covered : Covered next dist []) (roots : ∀ x, root x → Reaches dist 1 x)
    (length : Nat) (x : α) (walk : Walk next root length x) : Reaches dist (length + 1) x := by
  induction walk with
  | root x start => exact roots x start
  | step length x y _ edge ih =>
      obtain ⟨k, known, bound⟩ := ih
      obtain ⟨far, reached, farBound⟩ := ((covered x k known).resolve_left (by simp)) y edge
      exact ⟨far, reached, by omega⟩

theorem relax_distance (next : α → List α) (root : α → Prop) (fuel : Nat) (queue : List α)
    (dist result : α → Option Nat) (completed : relax next fuel queue dist = some result)
    (sound : Sound next root dist) (covered : Covered next dist queue)
    (roots : ∀ x, root x → Reaches dist 1 x) (x : α) (k : Nat) :
    result x = some k ↔ ∃ length, k = length + 1 ∧ Walk next root length x ∧
      ∀ other, Walk next root other x → length ≤ other := by
  obtain ⟨finalSound, finalCovered, kept⟩ := relax_invariant next root fuel queue dist result completed sound covered
  have reach := covered_walk next root result finalCovered (fun y start => kept 1 y (roots y start))
  constructor
  · intro known
    obtain ⟨length, kEq, walk⟩ := finalSound x k known
    refine ⟨length, kEq, walk, ?_⟩
    intro other otherWalk
    obtain ⟨far, farKnown, bound⟩ := reach other x otherWalk
    have same : k = far := Option.some.inj (known.symm.trans farKnown)
    omega
  · rintro ⟨length, rfl, walk, least⟩
    obtain ⟨far, farKnown, bound⟩ := reach length x walk
    obtain ⟨other, farEq, otherWalk⟩ := finalSound x far farKnown
    have atLeast := least other otherWalk
    have same : far = length + 1 := by omega
    rw [farKnown, same]

def Shortest (next : α → List α) (root : α → Prop) (length : Nat) (x : α) : Prop :=
  Walk next root length x ∧ ∀ other, Walk next root other x → length ≤ other

section ShortestWalks

omit [LinearOrder α]

variable (next : α → List α) (root : α → Prop)

theorem shortest_unique (a b : Nat) (x : α) (left : Shortest next root a x) (right : Shortest next root b x) : a = b :=
  le_antisymm (left.2 b right.1) (right.2 a left.1)

theorem shortest_exists (length : Nat) (x : α) (walk : Walk next root length x) : ∃ least, Shortest next root least x := by
  classical
  have some_ : ∃ n, Walk next root n x := ⟨length, walk⟩
  exact ⟨Nat.find some_, Nat.find_spec some_, fun other otherWalk => Nat.find_min' some_ otherWalk⟩

theorem shortest_previous (length : Nat) (x : α) (shortest : Shortest next root (length + 1) x) :
    ∃ y, Shortest next root length y := by
  obtain ⟨walk, least⟩ := shortest
  cases walk with
  | step _ y _ previous edge =>
      refine ⟨y, previous, ?_⟩
      intro other otherWalk
      exact Nat.le_of_succ_le_succ (least (other + 1) (.step other y x otherWalk edge))

theorem shortest_layers (length : Nat) (x : α) (shortest : Shortest next root length x) (k : Nat) (below : k ≤ length) :
    ∃ y, Shortest next root k y := by
  induction length generalizing x with
  | zero => exact ⟨x, Nat.le_zero.mp below ▸ shortest⟩
  | succ length ih =>
      rcases Nat.lt_or_eq_of_le below with less | rfl
      · obtain ⟨y, previous⟩ := shortest_previous next root length x shortest
        exact ih y previous (Nat.le_of_lt_succ less)
      · exact ⟨x, shortest⟩

theorem shortest_lt_card (region : Finset α) (inside : ∀ length x, Walk next root length x → x ∈ region)
    (length : Nat) (x : α) (shortest : Shortest next root length x) : length < region.card := by
  have layer : ∀ k, ∃ y, k ≤ length → Shortest next root k y := by
    intro k
    by_cases below : k ≤ length
    · obtain ⟨y, found⟩ := shortest_layers next root length x shortest k below
      exact ⟨y, fun _ => found⟩
    · exact ⟨x, fun within => absurd within below⟩
  choose at_ found using layer
  have bound : (Finset.range (length + 1)).card ≤ region.card := by
    refine Finset.card_le_card_of_injOn at_ ?_ ?_
    · intro k member
      have below : k ≤ length := Nat.le_of_lt_succ (Finset.mem_range.mp member)
      exact inside k (at_ k) (found k below).1
    · intro a aIn b bIn same
      have left := found a (Nat.le_of_lt_succ (Finset.mem_range.mp aIn))
      have right := found b (Nat.le_of_lt_succ (Finset.mem_range.mp bIn))
      exact shortest_unique next root a b (at_ a) left (same ▸ right)
  rwa [Finset.card_range] at bound

end ShortestWalks

-- Breadth-first order: the queue holds distance near, then near + 1, and no
-- known distance is larger. A known child is therefore never queued again.
structure Layered (near : Nat) (dist : α → Option Nat) (inner outer : List α) : Prop where
  innerKnown : ∀ x ∈ inner, dist x = some near
  outerKnown : ∀ x ∈ outer, dist x = some (near + 1)
  bounded : ∀ x k, dist x = some k → k ≤ near + 1

def unknown (region : Finset α) (dist : α → Option Nat) : Nat := (region.filter (fun x => dist x = none)).card

theorem unknown_update (region : Finset α) (dist : α → Option Nat) (x : α) (k : Nat)
    (inside : x ∈ region) (fresh : dist x = none) :
    unknown region (Function.update dist x (some k)) + 1 = unknown region dist := by
  have rest : region.filter (fun y => Function.update dist x (some k) y = none) =
      (region.filter (fun y => dist y = none)).erase x := by
    ext y
    by_cases hit : y = x
    · subst hit
      simp
    · simp [hit]
  rw [unknown, rest]
  exact Finset.card_erase_add_one (Finset.mem_filter.mpr ⟨inside, fresh⟩)

theorem relax_edges_layered (region : Finset α) (near : Nat) (children inner outer : List α)
    (dist : α → Option Nat) (inside : ∀ y ∈ children, y ∈ region) (layered : Layered near dist inner outer) :
    ∃ after grown, children.foldl (relaxEdge near) (dist, inner ++ outer) = (after, inner ++ grown) ∧
      Layered near after inner grown ∧
      (inner ++ grown).length + unknown region after = (inner ++ outer).length + unknown region dist := by
  induction children generalizing dist outer with
  | nil => exact ⟨dist, outer, rfl, layered, rfl⟩
  | cons child tail ih =>
      have tailInside : ∀ y ∈ tail, y ∈ region := fun y member => inside y (by simp [member])
      rw [List.foldl_cons]
      rcases relax_edge_cases near (dist, inner ++ outer) child with ⟨same, _⟩ | ⟨fresh, above⟩
      · rw [same]
        exact ih outer dist tailInside layered
      · have absent : dist child = none := by
          cases known : dist child with
          | none => rfl
          | some k =>
              have low := layered.bounded child k known
              have high := above k known
              omega
        have elsewhere : ∀ x k, dist x = some k → Function.update dist child (some (near + 1)) x = some k := by
          intro x k known
          have different : x ≠ child := fun hit => by simp [hit, absent] at known
          rw [Function.update_of_ne different, known]
        have grownLayered : Layered near (Function.update dist child (some (near + 1))) inner (outer ++ [child]) := by
          refine ⟨fun x member => elsewhere x near (layered.innerKnown x member), ?_, ?_⟩
          · intro x member
            rcases List.mem_append.mp member with old | new
            · exact elsewhere x (near + 1) (layered.outerKnown x old)
            · rw [List.mem_singleton.mp new]
              simp
          · intro x k known
            by_cases hit : x = child
            · subst hit
              simp at known
              omega
            · exact layered.bounded x k (by simpa [Function.update_of_ne hit] using known)
        obtain ⟨after, grown, folded, result, count⟩ := ih (outer ++ [child]) _ tailInside grownLayered
        refine ⟨after, grown, ?_, result, ?_⟩
        · rw [fresh, ← folded, List.append_assoc]
        · have paid := unknown_update region dist child (near + 1) (inside child (by simp)) absent
          simp only [List.length_append, List.length_cons, List.length_nil] at count ⊢
          omega

theorem relax_total (next : α → List α) (region : Finset α)
    (closed : ∀ x ∈ region, ∀ y ∈ next x, y ∈ region) (fuel near : Nat) (dist : α → Option Nat)
    (inner outer : List α) (inside : ∀ x, dist x ≠ none → x ∈ region) (layered : Layered near dist inner outer)
    (enough : (inner ++ outer).length + unknown region dist ≤ fuel) :
    ∃ result, relax next fuel (inner ++ outer) dist = some result := by
  induction fuel generalizing near dist inner outer with
  | zero =>
      have empty : inner ++ outer = [] := List.eq_nil_of_length_eq_zero (by omega)
      exact ⟨dist, by rw [empty, relax]⟩
  | succ fuel ih =>
      cases inner with
      | nil =>
          cases outer with
          | nil => exact ⟨dist, rfl⟩
          | cons x tail =>
              have promoted : Layered (near + 1) dist (x :: tail) [] :=
                ⟨layered.outerKnown, by simp, fun y k known => by have := layered.bounded y k known; omega⟩
              have known := layered.outerKnown x (by simp)
              have popped : Layered (near + 1) dist tail [] :=
                ⟨fun y member => promoted.innerKnown y (by simp [member]), by simp, promoted.bounded⟩
              obtain ⟨after, grown, folded, result, count⟩ := relax_edges_layered region (near + 1) (next x) tail [] dist
                (closed x (inside x (by simp [known]))) popped
              rw [List.append_nil] at folded count
              simp only [List.nil_append, relax, known, folded]
              have relaxed := relax_edges_relaxed (near + 1) (next x) (dist, tail)
              rw [folded] at relaxed
              refine ih (near + 1) after tail grown
                (relaxed_inside region (near + 1) (next x) _ _ relaxed inside (closed x (inside x (by simp [known]))))
                result ?_
              simp only [List.nil_append, List.length_cons] at enough
              omega
      | cons x tail =>
          have known := layered.innerKnown x (by simp)
          have popped : Layered near dist tail outer :=
            ⟨fun y member => layered.innerKnown y (by simp [member]), layered.outerKnown, layered.bounded⟩
          obtain ⟨after, grown, folded, result, count⟩ := relax_edges_layered region near (next x) tail outer dist
            (closed x (inside x (by simp [known]))) popped
          simp only [List.cons_append, relax, known, folded]
          have relaxed := relax_edges_relaxed near (next x) (dist, tail ++ outer)
          rw [folded] at relaxed
          refine ih near after tail grown
            (relaxed_inside region near (next x) _ _ relaxed inside (closed x (inside x (by simp [known])))) result ?_
          simp only [List.cons_append, List.length_cons] at enough
          omega

end Worklist
