import Mathlib.Algebra.BigOperators.Group.Finset.Basic
import Mathlib.Algebra.Order.BigOperators.Group.Finset
import Mathlib.Data.Fintype.Basic
import Mathlib.Logic.Function.Basic
import Mathlib.Logic.Relation

set_option autoImplicit false

namespace Sections

variable {Task Sect Lock Memory : Type}

-- Tasks share a memory. What they do to it they do in sections, one change after
-- another, behind locks of which the gate is the first.
structure Code (Task Sect Lock Memory : Type) where
  gate : Lock
  others : Sect → List Lock
  apart : ∀ s, (gate :: others s).Nodup
  changes : Task → Sect → List (Memory → Memory)

inductive Block (Sect : Type) where
  | wait
  | critical (s : Sect)

inductive Stage (Sect Lock Memory : Type) where
  | between
  | locking (s : Sect) (held todo : List Lock)
  | changing (held : List Lock) (todo : List (Memory → Memory))
  | leaving (held : List Lock)

def Stage.held : Stage Sect Lock Memory → List Lock
  | .between => []
  | .locking _ held _ => held
  | .changing held _ => held
  | .leaving held => held

structure Fine (Task Sect Lock Memory : Type) where
  stage : Task → Stage Sect Lock Memory
  blocks : Task → List (Block Sect)
  memory : Memory

structure Atomic (Task Sect Memory : Type) where
  blocks : Task → List (Block Sect)
  memory : Memory

def run (changes : List (Memory → Memory)) (m : Memory) : Memory := changes.foldl (fun m change => change m) m

section Moves

variable [DecidableEq Task]

def Fine.goes (w : Fine Task Sect Lock Memory) (t : Task) (stage : Stage Sect Lock Memory) : Fine Task Sect Lock Memory :=
  { w with stage := Function.update w.stage t stage }

def Fine.runs (w : Fine Task Sect Lock Memory) (t : Task) (blocks : List (Block Sect)) : Fine Task Sect Lock Memory :=
  { w with blocks := Function.update w.blocks t blocks }

inductive Inside (code : Code Task Sect Lock Memory) : Fine Task Sect Lock Memory → Fine Task Sect Lock Memory → Prop where
  | lock (w : Fine Task Sect Lock Memory) (t : Task) (s : Sect) (held : List Lock) (l : Lock) (todo : List Lock)
      (stands : w.stage t = .locking s held (l :: todo)) (free : ∀ u, l ∉ (w.stage u).held) :
      Inside code w (w.goes t (.locking s (l :: held) todo))
  | start (w : Fine Task Sect Lock Memory) (t : Task) (s : Sect) (held : List Lock)
      (stands : w.stage t = .locking s held []) : Inside code w (w.goes t (.changing held (code.changes t s)))
  | change (w : Fine Task Sect Lock Memory) (t : Task) (held : List Lock) (change : Memory → Memory)
      (todo : List (Memory → Memory)) (stands : w.stage t = .changing held (change :: todo)) :
      Inside code w { w.goes t (.changing held todo) with memory := change w.memory }
  | finish (w : Fine Task Sect Lock Memory) (t : Task) (held : List Lock) (stands : w.stage t = .changing held []) :
      Inside code w (w.goes t (.leaving held))
  | unlock (w : Fine Task Sect Lock Memory) (t : Task) (l : Lock) (held : List Lock)
      (stands : w.stage t = .leaving (l :: held)) : Inside code w (w.goes t (.leaving held))
  | leave (w : Fine Task Sect Lock Memory) (t : Task) (stands : w.stage t = .leaving []) :
      Inside code w (w.goes t .between)

-- A task at the end of its blocks goes on with any of those it may run. A task that
-- may be aborted ends where it waits, in a block or for a lock.
inductive Move (code : Code Task Sect Lock Memory) (bodies : Task → List (Block Sect) → Prop) (aborted : Task → Prop) :
    Fine Task Sect Lock Memory → Fine Task Sect Lock Memory → Prop where
  | begin (w : Fine Task Sect Lock Memory) (t : Task) (body : List (Block Sect)) (idle : w.stage t = .between)
      (done : w.blocks t = []) (chosen : bodies t body) : Move code bodies aborted w (w.runs t body)
  | wait (w : Fine Task Sect Lock Memory) (t : Task) (rest : List (Block Sect)) (idle : w.stage t = .between)
      (front : w.blocks t = .wait :: rest) : Move code bodies aborted w (w.runs t rest)
  | enter (w : Fine Task Sect Lock Memory) (t : Task) (s : Sect) (rest : List (Block Sect)) (idle : w.stage t = .between)
      (front : w.blocks t = .critical s :: rest) :
      Move code bodies aborted w ((w.runs t rest).goes t (.locking s [] (code.gate :: code.others s)))
  | inside (w next : Fine Task Sect Lock Memory) (inside : Inside code w next) : Move code bodies aborted w next
  | abort (w : Fine Task Sect Lock Memory) (t : Task) (may : aborted t) (idle : w.stage t = .between) :
      Move code bodies aborted w (w.runs t [])
  | abandon (w : Fine Task Sect Lock Memory) (t : Task) (s : Sect) (held : List Lock) (l : Lock) (todo : List Lock)
      (may : aborted t) (stands : w.stage t = .locking s held (l :: todo)) :
      Move code bodies aborted w ((w.runs t []).goes t (.leaving held))

def Atomic.runs (a : Atomic Task Sect Memory) (t : Task) (blocks : List (Block Sect)) (memory : Memory) :
    Atomic Task Sect Memory := ⟨Function.update a.blocks t blocks, memory⟩

inductive Whole (effect : Task → Sect → Memory → Memory) (bodies : Task → List (Block Sect) → Prop) (aborted : Task → Prop) :
    Atomic Task Sect Memory → Atomic Task Sect Memory → Prop where
  | begin (a : Atomic Task Sect Memory) (t : Task) (body : List (Block Sect)) (done : a.blocks t = [])
      (chosen : bodies t body) : Whole effect bodies aborted a (a.runs t body a.memory)
  | wait (a : Atomic Task Sect Memory) (t : Task) (rest : List (Block Sect)) (front : a.blocks t = .wait :: rest) :
      Whole effect bodies aborted a (a.runs t rest a.memory)
  | critical (a : Atomic Task Sect Memory) (t : Task) (s : Sect) (rest : List (Block Sect))
      (front : a.blocks t = .critical s :: rest) : Whole effect bodies aborted a (a.runs t rest (effect t s a.memory))
  | abort (a : Atomic Task Sect Memory) (t : Task) (may : aborted t) : Whole effect bodies aborted a (a.runs t [] a.memory)

end Moves

def Fine.start (memory : Memory) : Fine Task Sect Lock Memory := ⟨fun _ => .between, fun _ => [], memory⟩

def Atomic.start (memory : Memory) : Atomic Task Sect Memory := ⟨fun _ => [], memory⟩

-- Who holds a lock holds the gate, and no one else does.
def Stage.Orderly (code : Code Task Sect Lock Memory) : Stage Sect Lock Memory → Prop
  | .between => True
  | .locking s held todo => held.reverse ++ todo = code.gate :: code.others s
  | .changing held _ => held.getLast? = some code.gate
  | .leaving held => held ≠ [] → held.getLast? = some code.gate

structure Kept (code : Code Task Sect Lock Memory) (w : Fine Task Sect Lock Memory) : Prop where
  orderly : ∀ t, (w.stage t).Orderly code
  exclusive : ∀ t u l, l ∈ (w.stage t).held → l ∈ (w.stage u).held → t = u

theorem holds_gate (code : Code Task Sect Lock Memory) (stage : Stage Sect Lock Memory) (orderly : stage.Orderly code)
    (holds : stage.held ≠ []) : code.gate ∈ stage.held := by
  cases stage with
  | between => exact absurd rfl holds
  | locking s held todo =>
      obtain ⟨front, last, split⟩ := List.eq_nil_or_concat held |>.resolve_left holds
      rw [Stage.Orderly, split, List.concat_eq_append, List.reverse_append, List.reverse_singleton, List.append_assoc,
        List.singleton_append] at orderly
      rw [← (List.cons.inj orderly).1, Stage.held, split]
      simp
  | changing held todo => exact List.mem_of_getLast? orderly
  | leaving held => exact List.mem_of_getLast? (orderly holds)

theorem kept_start (code : Code Task Sect Lock Memory) (memory : Memory) :
    Kept code (Fine.start memory : Fine Task Sect Lock Memory) :=
  ⟨fun _ => trivial, fun _ _ _ member => absurd member List.not_mem_nil⟩

section Kept

variable [DecidableEq Task] (code : Code Task Sect Lock Memory) (w : Fine Task Sect Lock Memory) (kept : Kept code w)

include kept

theorem kept_goes (t : Task) (stage : Stage Sect Lock Memory) (orderly : stage.Orderly code)
    (held : ∀ l ∈ stage.held, l ∈ (w.stage t).held ∨ ∀ u, l ∉ (w.stage u).held) (blocks : Task → List (Block Sect))
    (memory : Memory) : Kept code ⟨Function.update w.stage t stage, blocks, memory⟩ := by
  constructor
  · exact (Function.forall_update_iff w.stage fun _ stage => stage.Orderly code).mpr ⟨orderly, fun u _ => kept.orderly u⟩
  · intro a b l first second
    dsimp only at first second
    by_cases hereA : a = t
    · by_cases hereB : b = t
      · exact hereA.trans hereB.symm
      · rw [hereA, Function.update_self] at first
        rw [Function.update_of_ne hereB] at second
        cases held l first with
        | inl had => exact hereA.trans (kept.exclusive t b l had second)
        | inr free => exact absurd second (free b)
    · rw [Function.update_of_ne hereA] at first
      by_cases hereB : b = t
      · rw [hereB, Function.update_self] at second
        cases held l second with
        | inl had => exact (kept.exclusive a t l first had).trans hereB.symm
        | inr free => exact absurd first (free a)
      · rw [Function.update_of_ne hereB] at second
        exact kept.exclusive a b l first second

theorem kept_inside (next : Fine Task Sect Lock Memory) (inside : Inside code w next) : Kept code next := by
  cases inside with
  | lock t s held l todo stands free =>
      have orderly := kept.orderly t
      rw [stands, Stage.Orderly] at orderly
      apply kept_goes code w kept t
      · rw [Stage.Orderly, List.reverse_cons, List.append_assoc, List.singleton_append]
        exact orderly
      · intro x member
        cases List.mem_cons.mp member with
        | inl here => exact Or.inr (here ▸ free)
        | inr old => exact Or.inl (by rwa [stands])
  | start t s held stands =>
      have orderly := kept.orderly t
      rw [stands, Stage.Orderly, List.append_nil] at orderly
      apply kept_goes code w kept t
      · rw [Stage.Orderly, ← List.head?_reverse, orderly, List.head?_cons]
      · exact fun x member => Or.inl (by rwa [stands])
  | change t held change todo stands =>
      have orderly := kept.orderly t
      rw [stands] at orderly
      exact kept_goes code w kept t (.changing held todo) orderly (fun x member => Or.inl (by rwa [stands])) _ _
  | finish t held stands =>
      have orderly := kept.orderly t
      rw [stands] at orderly
      exact kept_goes code w kept t (.leaving held) (fun _ => orderly) (fun x member => Or.inl (by rwa [stands])) _ _
  | unlock t l held stands =>
      have orderly := kept.orderly t
      rw [stands, Stage.Orderly] at orderly
      apply kept_goes code w kept t
      · intro more
        rw [← orderly (List.cons_ne_nil l held), List.getLast?_cons_of_ne_nil more]
      · exact fun x member => Or.inl (by rw [stands]; exact List.mem_cons_of_mem l member)
  | leave t stands => exact kept_goes code w kept t .between trivial (fun l member => absurd member List.not_mem_nil) _ _

theorem kept_move (bodies : Task → List (Block Sect) → Prop) (aborted : Task → Prop) (next : Fine Task Sect Lock Memory)
    (move : Move code bodies aborted w next) : Kept code next := by
  cases move with
  | begin t body idle done chosen => exact ⟨kept.orderly, kept.exclusive⟩
  | wait t rest idle front => exact ⟨kept.orderly, kept.exclusive⟩
  | enter t s rest idle front =>
      exact kept_goes code w kept t (.locking s [] _) rfl (fun l member => absurd member List.not_mem_nil) _ _
  | inside next inside => exact kept_inside code w kept next inside
  | abort t may idle => exact ⟨kept.orderly, kept.exclusive⟩
  | abandon t s held l todo may stands =>
      have orderly := kept.orderly t
      rw [stands, Stage.Orderly] at orderly
      refine kept_goes code w kept t (.leaving held) (fun some_ => ?_) (fun x member => Or.inl (by rwa [stands])) _ _
      rw [← List.head?_reverse]
      cases back : held.reverse with
      | nil => exact absurd (List.reverse_eq_nil_iff.mp back) some_
      | cons had rest =>
          rw [back, List.cons_append] at orderly
          rw [List.head?_cons, (List.cons.inj orderly).1]

end Kept

def Stage.pending : Stage Sect Lock Memory → List (Memory → Memory)
  | .changing _ todo => todo
  | _ => []

-- A section counts as made when its task has all its locks.
def Stage.ahead : Stage Sect Lock Memory → List (Block Sect)
  | .locking s _ _ => [.critical s]
  | _ => []

structure Mirrors (w : Fine Task Sect Lock Memory) (a : Atomic Task Sect Memory) : Prop where
  blocks : ∀ t, a.blocks t = (w.stage t).ahead ++ w.blocks t
  quiet : (∀ t, (w.stage t).pending = []) → a.memory = w.memory
  busy : ∀ t, (w.stage t).pending ≠ [] → a.memory = run (w.stage t).pending w.memory

theorem gate_alone (code : Code Task Sect Lock Memory) (w : Fine Task Sect Lock Memory) (kept : Kept code w) (t u : Task)
    (mine : (w.stage t).held ≠ []) (theirs : (w.stage u).held ≠ []) : t = u :=
  kept.exclusive t u code.gate (holds_gate code _ (kept.orderly t) mine) (holds_gate code _ (kept.orderly u) theirs)

theorem pending_holds (code : Code Task Sect Lock Memory) (stage : Stage Sect Lock Memory) (orderly : stage.Orderly code)
    (pending : stage.pending ≠ []) : stage.held ≠ [] := by
  cases stage with
  | between => exact absurd rfl pending
  | locking s held todo => exact absurd rfl pending
  | changing held todo =>
      intro (empty : held = [])
      rw [empty] at orderly
      exact absurd orderly nofun
  | leaving held => exact absurd rfl pending

section Mirror

variable [DecidableEq Task] (w : Fine Task Sect Lock Memory)

theorem goes_same {Seen : Type} (seen : Stage Sect Lock Memory → Seen) (t : Task) (stage : Stage Sect Lock Memory)
    (same : seen stage = seen (w.stage t)) (u : Task) : seen (Function.update w.stage t stage u) = seen (w.stage u) := by
  by_cases here : u = t
  · rw [here, Function.update_self, same]
  · rw [Function.update_of_ne here]

theorem mirror_changes (t : Task) (stage : Stage Sect Lock Memory) (memory later : Memory)
    (alone : ∀ u, u ≠ t → (w.stage u).pending = []) (come : later = run stage.pending memory)
    (blocks : Task → List (Block Sect)) (ahead : ∀ u, blocks u = (Function.update w.stage t stage u).ahead ++ w.blocks u) :
    Mirrors ⟨Function.update w.stage t stage, w.blocks, memory⟩ (⟨blocks, later⟩ : Atomic Task Sect Memory) := by
  refine ⟨ahead, fun none_ => ?_, fun u some_ => ?_⟩ <;> dsimp only at *
  · have mine := none_ t
    rw [Function.update_self] at mine
    rw [come, mine]
    rfl
  · by_cases here : u = t
    · rw [here, Function.update_self, come]
    · rw [Function.update_of_ne here] at some_
      exact absurd (alone u here) some_

variable (a : Atomic Task Sect Memory) (mirrors : Mirrors w a)

include mirrors

theorem mirror_goes (t : Task) (stage : Stage Sect Lock Memory) (same : stage.pending = (w.stage t).pending)
    (blocks ahead : List (Block Sect)) (front : ahead = stage.ahead ++ blocks) :
    Mirrors ⟨Function.update w.stage t stage, Function.update w.blocks t blocks, w.memory⟩ (a.runs t ahead a.memory) := by
  have pending := goes_same w Stage.pending t stage same
  refine ⟨fun u => ?_, fun none_ => ?_, fun u some_ => ?_⟩ <;> dsimp only [Atomic.runs] at *
  · by_cases here : u = t
    · rw [here, Function.update_self, Function.update_self, Function.update_self, front]
    · rw [Function.update_of_ne here, Function.update_of_ne here, Function.update_of_ne here]
      exact mirrors.blocks u
  · exact mirrors.quiet fun u => (pending u).symm.trans (none_ u)
  · rw [pending u] at some_ ⊢
    exact mirrors.busy u some_

theorem mirror_stays (t : Task) (stage : Stage Sect Lock Memory) (same : stage.pending = (w.stage t).pending)
    (ahead : stage.ahead = (w.stage t).ahead) : Mirrors (w.goes t stage) a := by
  have goes := mirror_goes w a mirrors t stage same (w.blocks t) (a.blocks t) (by rw [mirrors.blocks t, ahead])
  rw [Function.update_eq_self, Atomic.runs, Function.update_eq_self] at goes
  exact goes

variable (code : Code Task Sect Lock Memory) (kept : Kept code w)

include kept

theorem mirror_inside (effect : Task → Sect → Memory → Memory) (whole : ∀ t s m, run (code.changes t s) m = effect t s m)
    (bodies : Task → List (Block Sect) → Prop) (aborted : Task → Prop) (next : Fine Task Sect Lock Memory)
    (inside : Inside code w next) : ∃ b, (b = a ∨ Whole effect bodies aborted a b) ∧ Mirrors next b := by
  have alone (t : Task) (mine : (w.stage t).held ≠ []) (u : Task) (apart : u ≠ t) : (w.stage u).pending = [] := by
    by_contra some_
    exact apart (gate_alone code w kept u t (pending_holds code _ (kept.orderly u) some_) mine)
  cases inside with
  | lock t s held l todo stands free =>
      exact ⟨a, Or.inl rfl, mirror_stays w a mirrors t _ (by rw [stands]; rfl) (by rw [stands]; rfl)⟩
  | start t s held stands =>
      have orderly := kept.orderly t
      rw [stands, Stage.Orderly, List.append_nil] at orderly
      have mine : (w.stage t).held ≠ [] := by
        rw [stands]
        intro (empty : held = [])
        rw [empty] at orderly
        exact absurd orderly nofun
      have memory : a.memory = w.memory := by
        apply mirrors.quiet
        intro u
        by_cases here : u = t
        · rw [here, stands]
          rfl
        · exact alone t mine u here
      have front := mirrors.blocks t
      rw [stands] at front
      refine ⟨a.runs t (w.blocks t) (effect t s a.memory), Or.inr (.critical a t s _ front), ?_⟩
      refine mirror_changes w t _ w.memory _ (alone t mine) ?_ _ fun u => ?_
      · rw [← whole, memory]
        rfl
      · by_cases here : u = t
        · rw [here, Function.update_self, Function.update_self]
          rfl
        · rw [Function.update_of_ne here, Function.update_of_ne here]
          exact mirrors.blocks u
  | change t held change todo stands =>
      have some_ : (w.stage t).pending ≠ [] := by
        rw [stands]
        exact List.cons_ne_nil change todo
      have come := mirrors.busy t some_
      rw [stands] at come
      refine ⟨a, Or.inl rfl, mirror_changes w t (.changing held todo) _ _ ?_ come _ fun u => ?_⟩
      · exact alone t (pending_holds code _ (kept.orderly t) some_)
      · rw [goes_same w Stage.ahead t _ (by rw [stands]; rfl)]
        exact mirrors.blocks u
  | finish t held stands =>
      exact ⟨a, Or.inl rfl, mirror_stays w a mirrors t _ (by rw [stands]; rfl) (by rw [stands]; rfl)⟩
  | unlock t l held stands =>
      exact ⟨a, Or.inl rfl, mirror_stays w a mirrors t _ (by rw [stands]; rfl) (by rw [stands]; rfl)⟩
  | leave t stands =>
      exact ⟨a, Or.inl rfl, mirror_stays w a mirrors t _ (by rw [stands]; rfl) (by rw [stands]; rfl)⟩

end Mirror

section Runs

variable [DecidableEq Task] (code : Code Task Sect Lock Memory)

def Stage.steps (t : Task) : Stage Sect Lock Memory → Nat
  | .between => 0
  | .locking s held todo => 2 * todo.length + held.length + (code.changes t s).length + 3
  | .changing held todo => held.length + todo.length + 2
  | .leaving held => held.length + 1

theorem inside_goes (w next : Fine Task Sect Lock Memory) (inside : Inside code w next) :
    ∃ t stage, next.stage = Function.update w.stage t stage ∧ stage.steps code t < (w.stage t).steps code t := by
  cases inside with
  | lock t s held l todo stands free =>
      refine ⟨t, _, rfl, ?_⟩
      simp only [stands, Stage.steps, List.length_cons]
      omega
  | start t s held stands =>
      refine ⟨t, _, rfl, ?_⟩
      simp only [stands, Stage.steps, List.length_nil]
      omega
  | change t held change todo stands =>
      refine ⟨t, _, rfl, ?_⟩
      simp only [stands, Stage.steps, List.length_cons]
      omega
  | finish t held stands =>
      refine ⟨t, _, rfl, ?_⟩
      simp only [stands, Stage.steps, List.length_nil]
      omega
  | unlock t l held stands =>
      refine ⟨t, _, rfl, ?_⟩
      simp only [stands, Stage.steps, List.length_cons]
      omega
  | leave t stands =>
      refine ⟨t, _, rfl, ?_⟩
      simp only [stands, Stage.steps]
      omega

-- A task with the gate goes on. If no one has it, any task at it does.
theorem inside_moves (w : Fine Task Sect Lock Memory) (kept : Kept code w) (t : Task) (busy : w.stage t ≠ .between) :
    ∃ next, Inside code w next := by
  by_cases taken : ∃ u, (w.stage u).held ≠ []
  · obtain ⟨u, mine⟩ := taken
    have orderly := kept.orderly u
    cases stage : w.stage u with
    | between => exact absurd (by rw [stage]; rfl) mine
    | changing held todo =>
        cases todo with
        | nil => exact ⟨_, .finish w u held stage⟩
        | cons change rest => exact ⟨_, .change w u held change rest stage⟩
    | leaving held =>
        cases held with
        | nil => exact ⟨_, .leave w u stage⟩
        | cons l rest => exact ⟨_, .unlock w u l rest stage⟩
    | locking s held todo =>
        cases todo with
        | nil => exact ⟨_, .start w u s held stage⟩
        | cons l rest =>
            refine ⟨_, .lock w u s held l rest stage fun v theirs => ?_⟩
            have same := gate_alone code w kept u v mine (List.ne_nil_of_mem theirs)
            rw [← same, stage] at theirs
            rw [stage, Stage.Orderly] at orderly
            have once := code.apart s
            rw [← orderly, List.nodup_append] at once
            exact once.2.2 l (List.mem_reverse.mpr theirs) l List.mem_cons_self rfl
  · have free : ∀ u, (w.stage u).held = [] := fun u => by_contra fun mine => taken ⟨u, mine⟩
    cases stage : w.stage t with
    | between => exact absurd stage busy
    | changing held todo =>
        cases todo with
        | nil => exact ⟨_, .finish w t held stage⟩
        | cons change rest => exact ⟨_, .change w t held change rest stage⟩
    | leaving held =>
        cases held with
        | nil => exact ⟨_, .leave w t stage⟩
        | cons l rest => exact ⟨_, .unlock w t l rest stage⟩
    | locking s held todo =>
        cases todo with
        | nil => exact ⟨_, .start w t s held stage⟩
        | cons l rest => exact ⟨_, .lock w t s held l rest stage fun u => by rw [free u]; exact List.not_mem_nil⟩

theorem inside_falls [Fintype Task] (w next : Fine Task Sect Lock Memory) (inside : Inside code w next) :
    ∑ t, (next.stage t).steps code t < ∑ t, (w.stage t).steps code t := by
  obtain ⟨t, stage, goes, less⟩ := inside_goes code w next inside
  rw [goes]
  refine Finset.sum_lt_sum (fun u _ => ?_) ⟨t, Finset.mem_univ t, ?_⟩
  · by_cases here : u = t
    · rw [here, Function.update_self]
      exact Nat.le_of_lt less
    · rw [Function.update_of_ne here]
  · rw [Function.update_self]
    exact less

theorem all_leave [Fintype Task] (w : Fine Task Sect Lock Memory) (kept : Kept code w) :
    ∃ next, Relation.ReflTransGen (Inside code) w next ∧ ∀ t, next.stage t = .between := by
  induction size : ∑ t, (w.stage t).steps code t using Nat.strong_induction_on generalizing w with
  | _ size' ih =>
      by_cases busy : ∃ t, w.stage t ≠ .between
      · obtain ⟨t, inside⟩ := busy
        obtain ⟨next, move⟩ := inside_moves code w kept t inside
        obtain ⟨last, moves, left⟩ := ih _ (size ▸ inside_falls code w next move) next (kept_inside code w kept next move) rfl
        exact ⟨last, .head move moves, left⟩
      · exact ⟨w, .refl, fun t => by_contra fun inside => busy ⟨t, inside⟩⟩

variable (effect : Task → Sect → Memory → Memory) (bodies : Task → List (Block Sect) → Prop) (aborted : Task → Prop)
variable (whole : ∀ t s m, run (code.changes t s) m = effect t s m)

include whole

theorem mirror_move (w next : Fine Task Sect Lock Memory) (kept : Kept code w) (a : Atomic Task Sect Memory)
    (mirrors : Mirrors w a) (move : Move code bodies aborted w next) :
    ∃ b, (b = a ∨ Whole effect bodies aborted a b) ∧ Mirrors next b := by
  have idle_ahead (t : Task) (idle : w.stage t = .between) : a.blocks t = w.blocks t := by
    have blocks := mirrors.blocks t
    rwa [idle] at blocks
  have runs (t : Task) (idle : w.stage t = .between) (blocks : List (Block Sect)) :
      Mirrors (w.runs t blocks) (a.runs t blocks a.memory) := by
    have goes := mirror_goes w a mirrors t (w.stage t) rfl blocks blocks (by rw [idle]; rfl)
    rwa [Function.update_eq_self] at goes
  cases move with
  | begin t body idle done chosen =>
      exact ⟨_, Or.inr (.begin a t body ((idle_ahead t idle).trans done) chosen), runs t idle body⟩
  | wait t rest idle front => exact ⟨_, Or.inr (.wait a t rest ((idle_ahead t idle).trans front)), runs t idle rest⟩
  | enter t s rest idle front =>
      have goes := mirror_goes w a mirrors t (.locking s [] (code.gate :: code.others s)) (by rw [idle]; rfl) rest (a.blocks t)
        ((idle_ahead t idle).trans front)
      rw [Atomic.runs, Function.update_eq_self] at goes
      exact ⟨a, Or.inl rfl, goes⟩
  | inside next inside => exact mirror_inside w a mirrors code kept effect whole bodies aborted next inside
  | abort t may idle => exact ⟨_, Or.inr (.abort a t may), runs t idle []⟩
  | abandon t s held l todo may stands =>
      exact ⟨_, Or.inr (.abort a t may), mirror_goes w a mirrors t (.leaving held) (by rw [stands]; rfl) [] [] rfl⟩

theorem run_mirrored (memory : Memory) (w : Fine Task Sect Lock Memory)
    (moves : Relation.ReflTransGen (Move code bodies aborted) (Fine.start memory) w) :
    Kept code w ∧ ∃ a, Relation.ReflTransGen (Whole effect bodies aborted) (Atomic.start memory) a ∧ Mirrors w a := by
  induction moves with
  | refl =>
      exact ⟨kept_start code memory, _, .refl, fun _ => rfl, fun _ => rfl, fun t busy => absurd rfl busy⟩
  | @tail w next _ move ih =>
      obtain ⟨kept, a, steps, mirrors⟩ := ih
      obtain ⟨b, step, after⟩ := mirror_move code effect bodies aborted whole w next kept a mirrors move
      refine ⟨kept_move code w kept bodies aborted next move, b, ?_, after⟩
      cases step with
      | inl same => exact same ▸ steps
      | inr step => exact steps.tail step

end Runs

end Sections
