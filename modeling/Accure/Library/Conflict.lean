import Mathlib.Data.Set.Card
import Mathlib.Logic.Relation

set_option autoImplicit false

-- Validity in a dependency graph with two opposed kinds of operations. An
-- operation needs its dependencies; one of the losing kind is moreover defeated
-- by every valid operation of the winning kind that is concurrent with it.
namespace Conflict

variable {α : Type}

structure Graph (α : Type) where
  ops : Set α
  dep : α → α → Prop
  wins : α → Prop

namespace Graph

def Before (graph : Graph α) : α → α → Prop := Relation.TransGen graph.dep

def Concurrent (graph : Graph α) (a b : α) : Prop := a ≠ b ∧ ¬ graph.Before a b ∧ ¬ graph.Before b a

def Accepted (graph : Graph α) (valid : α → Prop) (x : α) : Prop :=
  (∀ a, graph.dep a x → valid a) ∧
    (¬ graph.wins x → ∀ y ∈ graph.ops, graph.wins y → valid y → ¬ graph.Concurrent x y)

def Settled (graph : Graph α) (valid : α → Prop) : Prop := ∀ x ∈ graph.ops, valid x ↔ graph.Accepted valid x

structure Ranked (graph : Graph α) (rank : α → Nat) : Prop where
  closed : ∀ a b, graph.dep a b → a ∈ graph.ops ∧ b ∈ graph.ops
  grows : ∀ a b, graph.dep a b → rank a < rank b

end Graph

theorem comparable_of_not_concurrent (graph : Graph α) (a b : α) (different : a ≠ b)
    (ordered : ¬ graph.Concurrent a b) : graph.Before a b ∨ graph.Before b a := by
  by_contra neither
  exact ordered ⟨different, fun less => neither (Or.inl less), fun less => neither (Or.inr less)⟩

theorem before_ends (graph : Graph α) (rank : α → Nat) (ranked : graph.Ranked rank) (a b : α)
    (before : graph.Before a b) : a ∈ graph.ops ∧ b ∈ graph.ops ∧ rank a < rank b := by
  induction before with
  | single edge => exact ⟨(ranked.closed _ _ edge).1, (ranked.closed _ _ edge).2, ranked.grows _ _ edge⟩
  | tail _ edge ih => exact ⟨ih.1, (ranked.closed _ _ edge).2, ih.2.2.trans (ranked.grows _ _ edge)⟩

theorem accepted_congr (graph : Graph α) (a b : α → Prop) (x : α) (closed : ∀ y, graph.dep y x → y ∈ graph.ops)
    (agree : ∀ y ∈ graph.ops, a y ↔ b y) : graph.Accepted a x ↔ graph.Accepted b x := by
  constructor
  · rintro ⟨deps, undefeated⟩
    exact ⟨fun y edge => (agree y (closed y edge)).mp (deps y edge),
      fun loses y yIn wins valid => undefeated loses y yIn wins ((agree y yIn).mpr valid)⟩
  · rintro ⟨deps, undefeated⟩
    exact ⟨fun y edge => (agree y (closed y edge)).mpr (deps y edge),
      fun loses y yIn wins valid => undefeated loses y yIn wins ((agree y yIn).mp valid)⟩

section Settled

variable (graph : Graph α) (rank : α → Nat) (ranked : graph.Ranked rank)
variable (valid : α → Prop) (settled : graph.Settled valid)

include ranked settled

theorem valid_before (a x : α) (before : graph.Before a x) (here : valid x) : valid a := by
  induction before using Relation.TransGen.head_induction_on with
  | single edge => exact ((settled _ (ranked.closed _ _ edge).2).mp here).1 _ edge
  | head edge _ ih => exact ((settled _ (ranked.closed _ _ edge).2).mp ih).1 _ edge

omit ranked in
theorem valid_opposites_ordered (loser winner : α) (loserIn : loser ∈ graph.ops) (winnerIn : winner ∈ graph.ops)
    (loses : ¬ graph.wins loser) (wins : graph.wins winner) (loserValid : valid loser) (winnerValid : valid winner) :
    graph.Before loser winner ∨ graph.Before winner loser := by
  have different : loser ≠ winner := fun same => loses (same ▸ wins)
  exact comparable_of_not_concurrent graph loser winner different
    (((settled loser loserIn).mp loserValid).2 loses winner winnerIn wins winnerValid)

theorem exists_valid (x : α) (member : x ∈ graph.ops) : ∃ y ∈ graph.ops, valid y := by
  obtain ⟨root, rootIn, least⟩ := WellFounded.has_min (measure rank).wf graph.ops ⟨x, member⟩
  have free : ∀ a, ¬ graph.dep a root := fun a edge => least a (ranked.closed a root edge).1 (ranked.grows a root edge)
  by_contra none
  apply none
  refine ⟨root, rootIn, (settled root rootIn).mpr ⟨fun a edge => absurd edge (free a), ?_⟩⟩
  exact fun _ y yIn _ yValid => absurd ⟨y, yIn, yValid⟩ none

theorem top_answers (top other : α) (topIn : top ∈ graph.ops) (otherIn : other ∈ graph.ops) (topValid : valid top)
    (otherValid : valid other) (opposed : graph.wins other ↔ ¬ graph.wins top) (highest : rank other ≤ rank top) :
    graph.Before other top := by
  have ordered : graph.Before other top ∨ graph.Before top other := by
    by_cases wins : graph.wins other
    · exact (valid_opposites_ordered graph valid settled top other topIn otherIn (opposed.mp wins) wins
        topValid otherValid).symm
    · have topWins : graph.wins top := by
        by_contra loses
        exact wins (opposed.mpr loses)
      exact valid_opposites_ordered graph valid settled other top otherIn topIn wins topWins otherValid topValid
  refine ordered.resolve_right ?_
  intro above
  have less := (before_ends graph rank ranked top other above).2.2
  omega

end Settled

section Arrival

structure Extends (graph next : Graph α) (p : α) : Prop where
  fresh : p ∉ graph.ops
  ops : ∀ x, x ∈ next.ops ↔ x = p ∨ x ∈ graph.ops
  old : ∀ a b, b ≠ p → (next.dep a b ↔ graph.dep a b)
  deps : ∀ a, next.dep a p → a ∈ graph.ops
  wins : ∀ x ∈ graph.ops, next.wins x ↔ graph.wins x

-- The register after the arrival. An accepted winner voids what rests on a
-- loser it does not know; any other arrival leaves the register as it was.
def Arrived (next : Graph α) (p : α) (valid : α → Prop) (x : α) : Prop :=
  (x = p ∧ next.Accepted valid p) ∨
    (x ≠ p ∧ valid x ∧
      (next.Accepted valid p → next.wins p → ∀ q, q = x ∨ next.Before q x → ¬ next.wins q → next.Before q p))

theorem arrived_congr (next : Graph α) (p : α) (a b : α → Prop) (x : α) (closed : ∀ y, next.dep y p → y ∈ next.ops)
    (agree : ∀ y ∈ next.ops, a y ↔ b y) (member : x ∈ next.ops) : Arrived next p a x ↔ Arrived next p b x := by
  rw [Arrived, Arrived, accepted_congr next a b p closed agree, agree x member]

theorem arrived_new (next : Graph α) (p : α) (valid : α → Prop) : Arrived next p valid p ↔ next.Accepted valid p := by
  simp [Arrived]

theorem arrived_old (next : Graph α) (p : α) (valid : α → Prop) (x : α) (old : x ≠ p) (arrived : Arrived next p valid x) : valid x :=
  (arrived.resolve_left (fun here => old here.1)).2.1

variable (graph next : Graph α) (p : α) (extends_ : Extends graph next p)
variable (rank : α → Nat) (ranked : graph.Ranked rank)

include extends_ ranked

theorem nothing_after (x : α) : ¬ next.Before p x := by
  have sink : ∀ y, ¬ next.dep p y := by
    intro y edge
    by_cases same : y = p
    · exact extends_.fresh (extends_.deps p (same ▸ edge))
    · exact extends_.fresh (ranked.closed p y ((extends_.old p y same).mp edge)).1
  intro before
  induction before using Relation.TransGen.head_induction_on with
  | single edge => exact sink _ edge
  | head edge _ _ => exact sink _ edge

theorem before_old (a b : α) (old : b ≠ p) : next.Before a b ↔ graph.Before a b := by
  constructor
  · intro before
    induction before using Relation.TransGen.head_induction_on with
    | single edge => exact Relation.TransGen.single ((extends_.old _ _ old).mp edge)
    | @head c d edge later ih =>
        have inner : d ≠ p := fun same => nothing_after graph next p extends_ rank ranked b (same ▸ later)
        exact Relation.TransGen.head ((extends_.old c d inner).mp edge) ih
  · intro before
    have inside : ∀ c, c ∈ graph.ops → c ≠ p := fun c member same => extends_.fresh (same ▸ member)
    induction before with
    | single edge => exact Relation.TransGen.single ((extends_.old _ _ old).mpr edge)
    | @tail c d before edge ih =>
        exact (ih (inside c (ranked.closed c d edge).1)).tail ((extends_.old c d old).mpr edge)

theorem concurrent_old (a b : α) (aOld : a ≠ p) (bOld : b ≠ p) : next.Concurrent a b ↔ graph.Concurrent a b := by
  rw [Graph.Concurrent, Graph.Concurrent, before_old graph next p extends_ rank ranked a b bOld,
    before_old graph next p extends_ rank ranked b a aOld]

variable (valid : α → Prop) (settled : graph.Settled valid)

omit ranked in
theorem arrived_settled_new : Arrived next p valid p ↔ next.Accepted (Arrived next p valid) p := by
  rw [arrived_new next p]
  have inside : ∀ a, next.dep a p → a ≠ p := fun a edge same => extends_.fresh (same ▸ extends_.deps a edge)
  constructor
  · intro accepted
    refine ⟨?_, ?_⟩
    · intro a edge
      refine Or.inr ⟨inside a edge, accepted.1 a edge, ?_⟩
      intro _ _ q below _
      rcases below with same | before
      · exact same ▸ Relation.TransGen.single edge
      · exact before.tail edge
    · intro loses y yIn wins arrived concurrent
      have yOld : y ≠ p := fun same => concurrent.1 same.symm
      exact accepted.2 loses y yIn wins (arrived_old next p valid y yOld arrived) concurrent
  · intro accepted
    refine ⟨?_, ?_⟩
    · intro a edge
      exact arrived_old next p valid a (inside a edge) (accepted.1 a edge)
    · intro loses y yIn wins yValid concurrent
      have yOld : y ≠ p := fun same => concurrent.1 same.symm
      exact accepted.2 loses y yIn wins (Or.inr ⟨yOld, yValid, fun _ wins => absurd wins loses⟩) concurrent

include settled

theorem accepted_before (accepted : next.Accepted valid p) (a : α) (before : next.Before a p) : valid a := by
  obtain ⟨b, path, edge⟩ := Relation.TransGen.tail'_iff.mp before
  have bIn := extends_.deps b edge
  have bOld : b ≠ p := fun same => extends_.fresh (same ▸ bIn)
  rcases Relation.reflTransGen_iff_eq_or_transGen.mp path with same | further
  · exact same ▸ accepted.1 b edge
  · exact valid_before graph rank ranked valid settled a b
      ((before_old graph next p extends_ rank ranked a b bOld).mp further) (accepted.1 b edge)

theorem arrived_old_accepted (x : α) (member : x ∈ graph.ops) (arrived : Arrived next p valid x) :
    next.Accepted (Arrived next p valid) x := by
  have inside : ∀ a, a ∈ graph.ops → a ≠ p := fun a aIn same => extends_.fresh (same ▸ aIn)
  have xOld := inside x member
  have depIn : ∀ a, next.dep a x → graph.dep a x := fun a edge => (extends_.old a x xOld).mp edge
  obtain ⟨_, xValid, kept⟩ := arrived.resolve_left (fun here => xOld here.1)
  have accepted := (settled x member).mp xValid
  refine ⟨?_, ?_⟩
  · intro a edge
    refine Or.inr ⟨inside a (ranked.closed a x (depIn a edge)).1, accepted.1 a (depIn a edge), ?_⟩
    intro newAccepted newWins q below loses
    refine kept newAccepted newWins q (Or.inr ?_) loses
    rcases below with same | before
    · exact same ▸ Relation.TransGen.single edge
    · exact before.tail edge
  · intro loses y yIn wins yArrived concurrent
    rcases (extends_.ops y).mp yIn with same | yOldIn
    · subst same
      have newAccepted := (arrived_new next y valid).mp yArrived
      exact concurrent.2.1 (kept newAccepted wins x (Or.inl rfl) loses)
    · have yOld := inside y yOldIn
      exact accepted.2 (fun oldWins => loses ((extends_.wins x member).mpr oldWins)) y yOldIn
        ((extends_.wins y yOldIn).mp wins) (arrived_old next p valid y yOld yArrived)
        ((concurrent_old graph next p extends_ rank ranked x y xOld yOld).mp concurrent)

theorem accepted_old_arrived (x : α) (member : x ∈ graph.ops) (accepted : next.Accepted (Arrived next p valid) x) :
    Arrived next p valid x := by
  have inside : ∀ a, a ∈ graph.ops → a ≠ p := fun a aIn same => extends_.fresh (same ▸ aIn)
  have xOld := inside x member
  have depIn : ∀ a, next.dep a x → graph.dep a x := fun a edge => (extends_.old a x xOld).mp edge
  obtain ⟨deps, undefeated⟩ := accepted
  have known : next.Accepted valid p → next.wins p → ¬ next.wins x → next.Before x p := by
    intro newAccepted newWins loses
    have ordered := undefeated loses p ((extends_.ops p).mpr (Or.inl rfl)) newWins
      ((arrived_new next p valid).mpr newAccepted)
    exact (comparable_of_not_concurrent next x p xOld ordered).resolve_right
      (nothing_after graph next p extends_ rank ranked x)
  have depsArrived : ∀ a, next.dep a x → valid a ∧ (next.Accepted valid p → next.wins p →
      ∀ q, q = a ∨ next.Before q a → ¬ next.wins q → next.Before q p) := by
    intro a edge
    exact ((deps a edge).resolve_left (fun here => inside a (ranked.closed a x (depIn a edge)).1 here.1)).2
  refine Or.inr ⟨xOld, ?_, ?_⟩
  · by_cases voided : next.Accepted valid p ∧ next.wins p ∧ ¬ next.wins x
    · exact accepted_before graph next p extends_ rank ranked valid settled voided.1 x
        (known voided.1 voided.2.1 voided.2.2)
    · refine (settled x member).mpr ⟨fun a edge => (depsArrived a ((extends_.old a x xOld).mpr edge)).1, ?_⟩
      intro loses y yIn wins yValid concurrent
      have nextLoses : ¬ next.wins x := fun wins => loses ((extends_.wins x member).mp wins)
      have yOld := inside y yIn
      refine undefeated nextLoses y ((extends_.ops y).mpr (Or.inr yIn)) ((extends_.wins y yIn).mpr wins)
        (Or.inr ⟨yOld, yValid, ?_⟩) ((concurrent_old graph next p extends_ rank ranked x y xOld yOld).mpr concurrent)
      exact fun newAccepted newWins => absurd ⟨newAccepted, newWins, nextLoses⟩ voided
  · intro newAccepted newWins q below loses
    rcases below with same | before
    · exact same ▸ known newAccepted newWins (same ▸ loses)
    · obtain ⟨a, path, edge⟩ := Relation.TransGen.tail'_iff.mp before
      refine (depsArrived a edge).2 newAccepted newWins q ?_ loses
      rcases Relation.reflTransGen_iff_eq_or_transGen.mp path with same | further
      · exact Or.inl same.symm
      · exact Or.inr further

theorem arrived_settled : next.Settled (Arrived next p valid) := by
  intro x member
  rcases (extends_.ops x).mp member with same | old
  · subst same
    exact arrived_settled_new graph next x extends_ valid
  · exact ⟨arrived_old_accepted graph next p extends_ rank ranked valid settled x old,
      accepted_old_arrived graph next p extends_ rank ranked valid settled x old⟩

omit settled in
theorem accepted_old (x : α) (member : x ∈ graph.ops) (unmarked : ¬ valid p) :
    next.Accepted valid x ↔ graph.Accepted valid x := by
  have inside : ∀ a, a ∈ graph.ops → a ≠ p := fun a aIn same => extends_.fresh (same ▸ aIn)
  have xOld := inside x member
  constructor
  · rintro ⟨deps, undefeated⟩
    refine ⟨fun a edge => deps a ((extends_.old a x xOld).mpr edge), ?_⟩
    intro loses y yIn wins yValid concurrent
    exact undefeated (fun nextWins => loses ((extends_.wins x member).mp nextWins)) y ((extends_.ops y).mpr (Or.inr yIn))
      ((extends_.wins y yIn).mpr wins) yValid
      ((concurrent_old graph next p extends_ rank ranked x y xOld (inside y yIn)).mpr concurrent)
  · rintro ⟨deps, undefeated⟩
    refine ⟨fun a edge => deps a ((extends_.old a x xOld).mp edge), ?_⟩
    intro loses y yNext wins yValid concurrent
    have yOld : y ≠ p := fun same => unmarked (same ▸ yValid)
    have yIn := ((extends_.ops y).mp yNext).resolve_left yOld
    exact undefeated (fun oldWins => loses ((extends_.wins x member).mpr oldWins)) y yIn ((extends_.wins y yIn).mp wins)
      yValid ((concurrent_old graph next p extends_ rank ranked x y xOld yOld).mp concurrent)

theorem arrived_between (mark : α → Prop) (x : α) (present : x ∈ next.ops)
    (deps : ∀ a, next.dep a x → (mark a ↔ Arrived next p valid a))
    (lower : ∀ y ∈ next.ops, Arrived next p valid y → mark y)
    (upper : ∀ y ∈ next.ops, mark y → (y = p ∧ next.Accepted valid p) ∨ (y ≠ p ∧ valid y)) :
    next.Accepted mark x ↔ Arrived next p valid x := by
  have final := arrived_settled graph next p extends_ rank ranked valid settled x present
  constructor
  · rintro ⟨depsMarked, undefeated⟩
    exact final.mpr ⟨fun a edge => (deps a edge).mp (depsMarked a edge),
      fun loses y yIn wins arrived => undefeated loses y yIn wins (lower y yIn arrived)⟩
  · intro arrived
    obtain ⟨depsArrived, undefeated⟩ := final.mp arrived
    refine ⟨fun a edge => (deps a edge).mpr (depsArrived a edge), ?_⟩
    intro loses y yIn wins marked concurrent
    rcases upper y yIn marked with ⟨same, accepted⟩ | ⟨yOld, yValid⟩
    · exact undefeated loses y yIn wins (Or.inl ⟨same, accepted⟩) concurrent
    · rcases (extends_.ops x).mp present with xNew | xIn
      · rw [xNew] at arrived concurrent loses
        exact ((arrived_new next p valid).mp arrived).2 loses y yIn wins yValid concurrent
      · have xOld : x ≠ p := fun same => extends_.fresh (same ▸ xIn)
        have yOldIn := ((extends_.ops y).mp yIn).resolve_left yOld
        have accepted := (settled x xIn).mp (arrived_old next p valid x xOld arrived)
        exact accepted.2 (fun oldWins => loses ((extends_.wins x xIn).mpr oldWins)) y yOldIn
          ((extends_.wins y yOldIn).mp wins) yValid
          ((concurrent_old graph next p extends_ rank ranked x y xOld yOld).mp concurrent)

end Arrival

section Disputes

-- A winner voids another one when a loser that the other rests on is
-- concurrent with it.
def Graph.Defeats (graph : Graph α) (a b : α) : Prop :=
  a ∈ graph.ops ∧ graph.wins a ∧ ∃ loser, ¬ graph.wins loser ∧ graph.Before loser b ∧ graph.Concurrent loser a

-- A winner that some winner defeats whose own defeaters are all overruled in
-- turn: whatever the history, it ends up void.
inductive Graph.Overruled (graph : Graph α) : α → Prop where
  | intro (a b : α) (present : b ∈ graph.ops) (wins : graph.wins b) (defeats : graph.Defeats a b)
      (undisputed : ∀ c, graph.Defeats c a → graph.Overruled c) : graph.Overruled b

def Graph.Undisputed (graph : Graph α) : Prop :=
  ∀ a b, graph.Defeats a b → graph.Defeats b a → graph.Overruled a ∨ graph.Overruled b

theorem not_defeats_self (graph : Graph α) (a : α) : ¬ graph.Defeats a a := by
  rintro ⟨_, _, loser, _, below, concurrent⟩
  exact concurrent.2.1 below

variable (graph : Graph α) (rank : α → Nat) (ranked : graph.Ranked rank)

include ranked

theorem defeated_invalid (valid : α → Prop) (settled : graph.Settled valid) (a b : α)
    (defeats : graph.Defeats a b) (aValid : valid a) : ¬ valid b := by
  intro bValid
  obtain ⟨aIn, aWins, loser, loses, below, concurrent⟩ := defeats
  have loserValid := valid_before graph rank ranked valid settled loser b below bValid
  have loserIn := (before_ends graph rank ranked loser b below).1
  exact ((settled loser loserIn).mp loserValid).2 loses a aIn aWins aValid concurrent

theorem undefeated_valid (valid : α → Prop) (settled : graph.Settled valid) (b : α) (present : b ∈ graph.ops)
    (wins : graph.wins b) (undefeated : ∀ a, graph.Defeats a b → ¬ valid a) : valid b := by
  have below : ∀ bound x, rank x < bound → graph.Before x b → valid x := by
    intro bound
    induction bound with
    | zero => exact fun x less => absurd less (Nat.not_lt_zero _)
    | succ bound ih =>
        intro x less before
        refine (settled x (before_ends graph rank ranked x b before).1).mpr ⟨?_, ?_⟩
        · intro a edge
          have step := ranked.grows a x edge
          exact ih a (by omega) (Relation.TransGen.head edge before)
        · exact fun loses y yIn yWins yValid concurrent =>
            undefeated y ⟨yIn, yWins, x, loses, before, concurrent⟩ yValid
  refine (settled b present).mpr ⟨fun a edge => ?_, fun loses => absurd wins loses⟩
  exact below (rank a + 1) a (Nat.lt_succ_self _) (Relation.TransGen.single edge)

theorem overruled_invalid (valid : α → Prop) (settled : graph.Settled valid) (b : α) (overruled : graph.Overruled b) :
    ¬ valid b := by
  induction overruled with
  | intro a b present wins defeats _ ih =>
      have aValid := undefeated_valid graph rank ranked valid settled a defeats.1 defeats.2.1 ih
      exact defeated_invalid graph rank ranked valid settled a b defeats aValid

def Graph.losersBefore (graph : Graph α) (x : α) : Set α := {a | ¬ graph.wins a ∧ graph.Before a x}

-- A one-sided defeat strictly enlarges the set of losers an operation rests on.
theorem one_sided_defeat (finite : graph.ops.Finite) (a b : α) (bWins : graph.wins b) (bIn : b ∈ graph.ops)
    (notBelow : ¬ graph.Before b a) (defeats : graph.Defeats a b) (oneSided : ¬ graph.Defeats b a) :
    (graph.losersBefore a).ncard < (graph.losersBefore b).ncard := by
  have bounded : (graph.losersBefore b).Finite :=
    finite.subset (fun x inside => (before_ends graph rank ranked x b inside.2).1)
  have included : graph.losersBefore a ⊆ graph.losersBefore b := by
    intro x inside
    have different : x ≠ b := fun same => inside.1 (same ▸ bWins)
    have ordered : ¬ graph.Concurrent x b := fun concurrent =>
      oneSided ⟨bIn, bWins, x, inside.1, inside.2, concurrent⟩
    refine ⟨inside.1, (comparable_of_not_concurrent graph x b different ordered).resolve_right ?_⟩
    exact fun above => notBelow (above.trans inside.2)
  obtain ⟨_, _, loser, loses, below, concurrent⟩ := defeats
  have strict : loser ∉ graph.losersBefore a := fun inside => concurrent.2.1 inside.2
  exact Set.ncard_lt_ncard ⟨included, fun back => strict (back ⟨loses, below⟩)⟩ bounded

theorem winners_agree (finite : graph.ops.Finite) (undisputed : graph.Undisputed) (left right : α → Prop)
    (leftSettled : graph.Settled left) (rightSettled : graph.Settled right) (size : Nat) (b : α)
    (present : b ∈ graph.ops) (wins : graph.wins b) (small : (graph.losersBefore b).ncard < size) :
    left b ↔ right b := by
  induction size generalizing b left right with
  | zero => exact absurd small (Nat.not_lt_zero _)
  | succ size ih =>
      have oneWay : ∀ left right : α → Prop, graph.Settled left → graph.Settled right → left b → right b := by
        intro left right leftSettled rightSettled leftValid
        apply undefeated_valid graph rank ranked right rightSettled b present wins
        intro a defeats rightValid
        have leftInvalid : ¬ left a := fun aValid =>
          defeated_invalid graph rank ranked left leftSettled a b defeats aValid leftValid
        have notBelow : ¬ graph.Before b a := by
          obtain ⟨_, _, loser, _, below, concurrent⟩ := defeats
          exact fun above => concurrent.2.1 (below.trans above)
        have oneSided : ¬ graph.Defeats b a := by
          intro back
          rcases undisputed a b defeats back with aOut | bOut
          · exact overruled_invalid graph rank ranked right rightSettled a aOut rightValid
          · exact overruled_invalid graph rank ranked left leftSettled b bOut leftValid
        have smaller := one_sided_defeat graph rank ranked finite a b wins present notBelow defeats oneSided
        exact leftInvalid ((ih left right leftSettled rightSettled a defeats.1 defeats.2.1 (by omega)).mpr rightValid)
      exact ⟨oneWay left right leftSettled rightSettled, oneWay right left rightSettled leftSettled⟩

theorem settled_unique (finite : graph.ops.Finite) (undisputed : graph.Undisputed) (left right : α → Prop)
    (leftSettled : graph.Settled left) (rightSettled : graph.Settled right) (bound : Nat) (x : α)
    (present : x ∈ graph.ops) (low : rank x < bound) : left x ↔ right x := by
  have winners := fun b bIn wins => winners_agree graph rank ranked finite undisputed left right leftSettled
    rightSettled _ b bIn wins (Nat.lt_succ_self _)
  induction bound generalizing x with
  | zero => exact absurd low (Nat.not_lt_zero _)
  | succ bound ih =>
      have deps : ∀ a, graph.dep a x → (left a ↔ right a) := by
        intro a edge
        have step := ranked.grows a x edge
        exact ih a (ranked.closed a x edge).1 (by omega)
      rw [leftSettled x present, rightSettled x present, Graph.Accepted, Graph.Accepted]
      constructor
      · rintro ⟨depsValid, undefeated⟩
        exact ⟨fun a edge => (deps a edge).mp (depsValid a edge),
          fun loses y yIn wins yValid => undefeated loses y yIn wins ((winners y yIn wins).mpr yValid)⟩
      · rintro ⟨depsValid, undefeated⟩
        exact ⟨fun a edge => (deps a edge).mpr (depsValid a edge),
          fun loses y yIn wins yValid => undefeated loses y yIn wins ((winners y yIn wins).mp yValid)⟩

end Disputes

end Conflict
