import Mathlib.Data.List.Basic
import Mathlib.Data.List.Infix

set_option autoImplicit false

-- A queue that may break. What was put in comes out in its order and without
-- gaps. Only what is inside when it breaks, or put in later, is lost.
structure Pipe (T : Type) where
  alive : Bool
  entered : List T
  passed : List T
  inside : List T
  ordered : passed ++ inside <+: entered
  whole : alive = true → passed ++ inside = entered

namespace Pipe

variable {T : Type}

def start (entered : List T) : Pipe T := ⟨true, entered, [], entered, List.prefix_rfl, fun _ => rfl⟩

def push (pipe : Pipe T) (value : T) : Pipe T where
  alive := pipe.alive
  entered := pipe.entered ++ [value]
  passed := pipe.passed
  inside := if pipe.alive then pipe.inside ++ [value] else pipe.inside
  ordered := by
    by_cases alive : pipe.alive = true
    · rw [if_pos alive, ← List.append_assoc, pipe.whole alive]
    · rw [if_neg alive]
      exact pipe.ordered.trans (List.prefix_append _ _)
  whole alive := by rw [if_pos alive, ← List.append_assoc, pipe.whole alive]

def pop (pipe : Pipe T) (value : T) (rest : List T) (front : pipe.inside = value :: rest) : Pipe T where
  alive := pipe.alive
  entered := pipe.entered
  passed := pipe.passed ++ [value]
  inside := rest
  ordered := by
    rw [List.append_assoc, List.singleton_append, ← front]
    exact pipe.ordered
  whole alive := by
    rw [List.append_assoc, List.singleton_append, ← front]
    exact pipe.whole alive

def cut (pipe : Pipe T) (kept : Nat) : Pipe T where
  alive := false
  entered := pipe.entered
  passed := pipe.passed
  inside := pipe.inside.take kept
  ordered := ((List.prefix_append_right_inj _).mpr (List.take_prefix _ _)).trans pipe.ordered
  whole := nofun

@[simp] theorem start_entered (entered : List T) : (start entered).entered = entered := rfl

@[simp] theorem start_passed (entered : List T) : (start entered).passed = [] := rfl

@[simp] theorem push_alive (pipe : Pipe T) (value : T) : (pipe.push value).alive = pipe.alive := rfl

@[simp] theorem push_entered (pipe : Pipe T) (value : T) : (pipe.push value).entered = pipe.entered ++ [value] := rfl

@[simp] theorem push_passed (pipe : Pipe T) (value : T) : (pipe.push value).passed = pipe.passed := rfl

theorem push_length (pipe : Pipe T) (value : T) (alive : pipe.alive = true) :
    (pipe.push value).inside.length = pipe.inside.length + 1 := by
  simp [push, alive]

@[simp] theorem cut_alive (pipe : Pipe T) (kept : Nat) : (pipe.cut kept).alive = false := rfl

@[simp] theorem cut_entered (pipe : Pipe T) (kept : Nat) : (pipe.cut kept).entered = pipe.entered := rfl

@[simp] theorem cut_passed (pipe : Pipe T) (kept : Nat) : (pipe.cut kept).passed = pipe.passed := rfl

section Pop

variable (pipe : Pipe T) (value : T) (rest : List T) (front : pipe.inside = value :: rest)

@[simp] theorem pop_alive : (pipe.pop value rest front).alive = pipe.alive := rfl

@[simp] theorem pop_entered : (pipe.pop value rest front).entered = pipe.entered := rfl

@[simp] theorem pop_passed : (pipe.pop value rest front).passed = pipe.passed ++ [value] := rfl

@[simp] theorem pop_inside : (pipe.pop value rest front).inside = rest := rfl

theorem pop_length : pipe.inside.length = (pipe.pop value rest front).inside.length + 1 := by
  rw [front, pop_inside, List.length_cons]

end Pop

theorem passed_entered (pipe : Pipe T) : pipe.passed <+: pipe.entered :=
  (List.prefix_append _ _).trans pipe.ordered

theorem drained (pipe : Pipe T) (alive : pipe.alive = true) (empty : pipe.inside = []) : pipe.passed = pipe.entered := by
  have whole := pipe.whole alive
  rwa [empty, List.append_nil] at whole

theorem linked_passed (first second : Pipe T) (linked : second.entered = first.passed) : second.passed <+: first.entered := by
  have inner := second.passed_entered
  rw [linked] at inner
  exact inner.trans first.passed_entered

end Pipe
