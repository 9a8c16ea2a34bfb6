import Mathlib.Order.Lattice
import Mathlib.Data.List.Pairwise

set_option autoImplicit false

-- A sorted list without repetitions. Iteration follows the order of the
-- elements, and two sets with the same members are the same value.
structure OrderedSet (α : Type) [LinearOrder α] where
  elems : List α
  sorted : elems.Pairwise (· < ·)

namespace OrderedSet

variable {α : Type} [LinearOrder α]

instance : DecidableEq (OrderedSet α) := fun a b =>
  decidable_of_iff (a.elems = b.elems) (by cases a; cases b; simp)

instance : Membership α (OrderedSet α) := ⟨fun set a => a ∈ set.elems⟩

instance (a : α) (set : OrderedSet α) : Decidable (a ∈ set) :=
  inferInstanceAs (Decidable (a ∈ set.elems))

@[simp] theorem mem_elems (a : α) (set : OrderedSet α) : a ∈ set.elems ↔ a ∈ set := Iff.rfl

def empty : OrderedSet α := ⟨[], List.Pairwise.nil⟩

instance : EmptyCollection (OrderedSet α) := ⟨empty⟩

instance : Inhabited (OrderedSet α) := ⟨∅⟩

@[simp] theorem elems_empty : (∅ : OrderedSet α).elems = [] := rfl

@[simp] theorem not_mem_empty (a : α) : a ∉ (∅ : OrderedSet α) := List.not_mem_nil

def place (a : α) : List α → List α
  | [] => [a]
  | b :: tail =>
      if a < b then a :: b :: tail
      else if a = b then b :: tail
      else b :: place a tail

theorem mem_place (a b : α) (rows : List α) : b ∈ place a rows ↔ b = a ∨ b ∈ rows := by
  induction rows with
  | nil => simp [place]
  | cons head tail ih =>
      by_cases less : a < head
      · simp [place, less]
      · by_cases same : a = head
        · simp [place, same]
        · rw [place, if_neg less, if_neg same, List.mem_cons, ih, List.mem_cons]
          exact or_left_comm

theorem place_sorted (a : α) (rows : List α) (sorted : rows.Pairwise (· < ·)) :
    (place a rows).Pairwise (· < ·) := by
  induction rows with
  | nil => simp [place]
  | cons head tail ih =>
      obtain ⟨above, rest⟩ := List.pairwise_cons.mp sorted
      by_cases less : a < head
      · rw [place, if_pos less]
        refine List.pairwise_cons.mpr ⟨?_, sorted⟩
        intro b member
        rcases List.mem_cons.mp member with same | later
        · exact same ▸ less
        · exact less.trans (above b later)
      · by_cases same : a = head
        · simpa only [place, if_neg less, if_pos same] using sorted
        · rw [place, if_neg less, if_neg same]
          refine List.pairwise_cons.mpr ⟨?_, ih rest⟩
          intro b member
          rcases (mem_place a b tail).mp member with fresh | later
          · exact fresh ▸ lt_of_le_of_ne (not_lt.mp less) (Ne.symm same)
          · exact above b later

def insert (a : α) (set : OrderedSet α) : OrderedSet α :=
  ⟨place a set.elems, place_sorted a set.elems set.sorted⟩

@[simp] theorem mem_insert (a b : α) (set : OrderedSet α) : b ∈ set.insert a ↔ b = a ∨ b ∈ set :=
  mem_place a b set.elems

theorem nodup (set : OrderedSet α) : set.elems.Nodup :=
  set.sorted.imp (fun less => ne_of_lt less)

theorem sorted_unique (a b : List α) (left : a.Pairwise (· < ·)) (right : b.Pairwise (· < ·))
    (same : ∀ x, x ∈ a ↔ x ∈ b) : a = b := by
  induction a generalizing b with
  | nil =>
      cases b with
      | nil => rfl
      | cons head tail => exact absurd ((same head).mpr (by simp)) List.not_mem_nil
  | cons head tail ih =>
      cases b with
      | nil => exact absurd ((same head).mp (by simp)) List.not_mem_nil
      | cons other rest =>
          obtain ⟨aboveHead, sortedTail⟩ := List.pairwise_cons.mp left
          obtain ⟨aboveOther, sortedRest⟩ := List.pairwise_cons.mp right
          have heads : head = other := by
            rcases List.mem_cons.mp ((same head).mp (by simp)) with equal | later
            · exact equal
            · rcases List.mem_cons.mp ((same other).mpr (by simp)) with equal | earlier
              · exact equal.symm
              · exact absurd (aboveOther head later) (not_lt.mpr (le_of_lt (aboveHead other earlier)))
          subst heads
          refine congrArg (List.cons head) (ih rest sortedTail sortedRest ?_)
          intro x
          constructor
          · intro member
            rcases List.mem_cons.mp ((same x).mp (by simp [member])) with equal | later
            · exact absurd (aboveHead x member) (equal ▸ lt_irrefl x)
            · exact later
          · intro member
            rcases List.mem_cons.mp ((same x).mpr (by simp [member])) with equal | later
            · exact absurd (aboveOther x member) (equal ▸ lt_irrefl x)
            · exact later

theorem ext (a b : OrderedSet α) (same : ∀ x, x ∈ a ↔ x ∈ b) : a = b := by
  have rows := sorted_unique a.elems b.elems a.sorted b.sorted same
  cases a
  cases b
  simpa using rows

end OrderedSet
