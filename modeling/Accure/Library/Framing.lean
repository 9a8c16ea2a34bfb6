import Mathlib.Data.List.Basic
import Mathlib.Data.List.Infix

set_option autoImplicit false

namespace Framing

-- What a stream has still to give, and how much each read of it finds ready:
-- one byte at least until the end, where a read finds nothing.
structure Source (β : Type) where
  bytes : List β
  ready : Nat → Nat

section Reading

variable {β : Type}

def Source.rest (source : Source β) (count : Nat) : Source β := ⟨source.bytes.drop count, source.ready ∘ Nat.succ⟩

def Source.read (source : Source β) (limit : Nat) : List β × Source β :=
  let count := min limit (source.ready 0 + 1)
  (source.bytes.take count, source.rest count)

theorem read_length (source : Source β) (limit : Nat) : (source.read limit).1.length ≤ limit := by
  rw [Source.read, List.length_take]
  omega

theorem read_append (source : Source β) (limit : Nat) :
    (source.read limit).1 ++ (source.read limit).2.bytes = source.bytes := List.take_append_drop _ _

theorem read_empty (source : Source β) (limit : Nat) (positive : limit ≠ 0) :
    (source.read limit).1 = [] ↔ source.bytes = [] := by
  rw [Source.read, List.take_eq_nil_iff]
  exact or_iff_right (by omega)

-- Reads until the count is there, or gives up at the end of the stream. Each
-- read but the last brings something, so the count bounds their number.
def Source.fill : Nat → Source β → List β → Option (List β) × Source β
  | 0, source, got => (some got, source)
  | count + 1, source, got =>
      if ended : (source.read (count + 1)).1 = [] then (none, (source.read (count + 1)).2)
      else
        have := List.length_pos_iff.mpr ended
        Source.fill (count + 1 - (source.read (count + 1)).1.length) (source.read (count + 1)).2
          (got ++ (source.read (count + 1)).1)
termination_by count => count

def Source.exactly (source : Source β) (count : Nat) : Option (List β) × Source β := source.fill count []

theorem fill_enough (count : Nat) (source : Source β) (got front back : List β) (split : source.bytes = front ++ back)
    (long : front.length = count) : ∃ after : Source β, source.fill count got = (some (got ++ front), after) ∧
      after.bytes = back := by
  induction count using Nat.strong_induction_on generalizing source got front with
  | _ count ih =>
      cases count with
      | zero =>
          obtain rfl := List.eq_nil_of_length_eq_zero long
          exact ⟨source, by rw [Source.fill, List.append_nil], by simpa using split⟩
      | succ count =>
          have nonempty : source.bytes ≠ [] := by
            intro empty
            have both := congrArg List.length (split.symm.trans empty)
            simp only [List.length_append, List.length_nil] at both
            omega
          have some_ : (source.read (count + 1)).1 ≠ [] := mt (read_empty source (count + 1) (by omega)).mp nonempty
          have piece : (source.read (count + 1)).1 <+: front := by
            refine List.prefix_of_prefix_length_le ⟨_, read_append source (count + 1)⟩ ⟨back, split.symm⟩ ?_
            rw [long]
            exact read_length source (count + 1)
          obtain ⟨remainder, joined⟩ := piece
          have later : (source.read (count + 1)).2.bytes = remainder ++ back := by
            have whole := read_append source (count + 1)
            rw [split, ← joined, List.append_assoc] at whole
            exact List.append_cancel_left whole
          have sizes := congrArg List.length joined
          rw [List.length_append, long] at sizes
          have positive := List.length_pos_iff.mpr some_
          obtain ⟨after, filled, left⟩ := ih (count + 1 - (source.read (count + 1)).1.length) (by omega)
            (source.read (count + 1)).2 (got ++ (source.read (count + 1)).1) remainder later (by omega)
          refine ⟨after, ?_, left⟩
          rw [Source.fill, dif_neg some_, filled, List.append_assoc, joined]

theorem fill_short (count : Nat) (source : Source β) (got : List β) (short : source.bytes.length < count) :
    ∃ after : Source β, source.fill count got = (none, after) ∧ after.bytes = [] := by
  induction count using Nat.strong_induction_on generalizing source got with
  | _ count ih =>
      cases count with
      | zero => omega
      | succ count =>
          have whole := congrArg List.length (read_append source (count + 1))
          rw [List.length_append] at whole
          by_cases ended : (source.read (count + 1)).1 = []
          · refine ⟨(source.read (count + 1)).2, by rw [Source.fill, dif_pos ended], ?_⟩
            have nothing := (read_empty source (count + 1) (by omega)).mp ended
            simp [Source.read, Source.rest, nothing]
          · have positive := List.length_pos_iff.mpr ended
            obtain ⟨after, filled, left⟩ := ih (count + 1 - (source.read (count + 1)).1.length) (by omega)
              (source.read (count + 1)).2 (got ++ (source.read (count + 1)).1) (by omega)
            exact ⟨after, by rw [Source.fill, dif_neg ended, filled], left⟩

theorem exactly_enough (source : Source β) (front back : List β) (split : source.bytes = front ++ back) :
    ∃ after : Source β, source.exactly front.length = (some front, after) ∧ after.bytes = back := by
  simpa [Source.exactly] using fill_enough front.length source [] front back split rfl

theorem exactly_short (source : Source β) (count : Nat) (short : source.bytes.length < count) :
    ∃ after : Source β, source.exactly count = (none, after) ∧ after.bytes = [] := fill_short count source [] short

end Reading

section Frames

variable {σ α β ρ : Type}

-- A reader of frames: a frame is read whole whatever follows it, and a piece of
-- one, or nothing, ends the stream. `framed` are the values that have a frame.
structure Delimits (framed : α → Prop) (frame : α → List β) (bytes : σ → List β) (read : σ → ρ × σ)
    (value : α → ρ) (ended : ρ) : Prop where
  whole : ∀ a s rest, framed a → bytes s = frame a ++ rest → (read s).1 = value a ∧ bytes (read s).2 = rest
  cut : ∀ a s, framed a → bytes s <+: frame a → bytes s ≠ frame a → (read s).1 = ended ∧ bytes (read s).2 = []
  empty : ∀ s, bytes s = [] → (read s).1 = ended ∧ bytes (read s).2 = []

def repeatedly (read : σ → ρ × σ) : Nat → σ → List ρ
  | 0, _ => []
  | turns + 1, s => (read s).1 :: repeatedly read turns (read s).2

def stream (frame : α → List β) (values : List α) : List β := (values.map frame).flatten

variable (framed : α → Prop) (frame : α → List β) (bytes : σ → List β) (read : σ → ρ × σ)
variable (value : α → ρ) (ended : ρ)
variable (delimits : Delimits framed frame bytes read value ended)

include delimits

theorem ended_repeatedly (turns : Nat) (s : σ) (empty : bytes s = []) :
    repeatedly read turns s = List.replicate turns ended := by
  induction turns generalizing s with
  | zero => rfl
  | succ turns ih =>
      obtain ⟨result, after⟩ := delimits.empty s empty
      rw [repeatedly, result, ih _ after, List.replicate_succ]

theorem cut_repeatedly (values : List α) (all : ∀ v ∈ values, framed v) (cut : Nat) (s : σ)
    (given : bytes s = (stream frame values).take cut) :
    ∃ count ≤ values.length, (stream frame (values.take count)).length ≤ cut ∧
      (count < values.length → cut < (stream frame (values.take (count + 1))).length) ∧
      ∀ turns, repeatedly read turns s =
        ((values.take count).map value).take turns ++ List.replicate (turns - count) ended := by
  induction values generalizing cut s with
  | nil =>
      refine ⟨0, le_refl 0, Nat.zero_le cut, fun less => absurd less (Nat.not_lt_zero 0), ?_⟩
      intro turns
      rw [ended_repeatedly framed frame bytes read value ended delimits turns s (by simpa [stream] using given)]
      simp
  | cons v tail ih =>
      have head : stream frame (v :: tail) = frame v ++ stream frame tail := by simp [stream]
      have here : framed v := all v List.mem_cons_self
      by_cases within : (frame v).length ≤ cut
      · rw [head, List.take_append, List.take_of_length_le within] at given
        obtain ⟨result, after⟩ := delimits.whole v s _ here given
        obtain ⟨count, bound, before, beyond, later⟩ := ih (fun x member => all x (List.mem_cons_of_mem v member))
          (cut - (frame v).length) (read s).2 after
        refine ⟨count + 1, Nat.succ_le_succ bound, ?_, ?_, ?_⟩
        · simp only [List.take_succ_cons, stream, List.map_cons, List.flatten_cons, List.length_append] at before ⊢
          omega
        · intro less
          have more := beyond (Nat.lt_of_succ_lt_succ less)
          simp only [List.take_succ_cons, stream, List.map_cons, List.flatten_cons, List.length_append] at more ⊢
          omega
        · intro turns
          cases turns with
          | zero => simp [repeatedly]
          | succ turns => rw [repeatedly, result, later turns]; simp
      · have inside : cut < (frame v).length := Nat.lt_of_not_le within
        rw [head, List.take_append_of_le_length inside.le] at given
        have partial_ : bytes s ≠ frame v := by
          intro same
          have lengths := congrArg List.length (given.symm.trans same)
          rw [List.length_take] at lengths
          omega
        obtain ⟨result, after⟩ := delimits.cut v s here (given ▸ List.take_prefix cut (frame v)) partial_
        refine ⟨0, Nat.zero_le _, Nat.zero_le cut, fun _ => by simpa [stream] using inside, ?_⟩
        intro turns
        cases turns with
        | zero => rfl
        | succ turns =>
            rw [repeatedly, result, ended_repeatedly framed frame bytes read value ended delimits turns _ after]
            simp [List.replicate_succ]

end Frames

end Framing
