import Accure.Wire

set_option autoImplicit false

namespace Accure

open Framing

-- A read_frame call between two reads, by the bytes it has taken so far.
inductive Call (T : Type) where
  | waiting
  | returned (result : Except IoError T)

section Calls

variable {T : Type} (codec : Bincode T)

def bodyLength (taken : List UInt8) : Nat := (u32OfLe (taken.take 4)).toNat

def call (taken : List UInt8) : Call T :=
  if taken.length < 4 then .waiting
  else if bodyLength taken > maxFrame then .returned (.error .frameTooLarge)
  else if taken.length < 4 + bodyLength taken then .waiting
  else .returned ((codec.deserialize (taken.drop 4)).mapError .invalidData)

def wanted (taken : List UInt8) : Nat :=
  if taken.length < 4 then 4 - taken.length else 4 + bodyLength taken - taken.length

theorem body_length_take (taken : List UInt8) (count : Nat) (four : 4 ≤ count) :
    bodyLength (taken.take count) = bodyLength taken := by
  rw [bodyLength, List.take_take, Nat.min_eq_left four, bodyLength]

section Uninterrupted

variable (source : Source UInt8) (taken rest : List UInt8) (result : Except IoError T)
variable (given : source.bytes = taken ++ rest) (returned : call codec taken = .returned result)
variable (before : ∀ front, front <+: taken → front ≠ taken → call codec front = .waiting)

include returned

omit given before in
theorem returned_four : 4 ≤ taken.length := by
  by_contra short
  rw [call, if_pos (Nat.not_le.mp short)] at returned
  cases returned

include before

omit given in
-- A call that returns has taken the length field and, unless that is too
-- large, as many bytes more as it says.
theorem returned_length : taken.length = if bodyLength taken > maxFrame then 4 else 4 + bodyLength taken := by
  have four := returned_four codec taken result returned
  by_cases large : bodyLength taken > maxFrame
  · rw [if_pos large]
    by_contra longer
    have shorter : (taken.take 4).length = 4 := by rw [List.length_take]; omega
    have early := before (taken.take 4) (List.take_prefix 4 taken) (fun same => longer (by rw [← same, shorter]))
    rw [call, body_length_take taken 4 (le_refl 4), if_neg (by omega), if_pos large] at early
    cases early
  · rw [if_neg large]
    rw [call, if_neg (by omega), if_neg large] at returned
    have enough : ¬ taken.length < 4 + bodyLength taken := by
      intro short
      rw [if_pos short] at returned
      cases returned
    by_contra longer
    have shorter : (taken.take (4 + bodyLength taken)).length = 4 + bodyLength taken := by
      rw [List.length_take]
      omega
    have early := before (taken.take (4 + bodyLength taken)) (List.take_prefix _ taken)
      (fun same => longer (by rw [← shorter, same]))
    rw [call, body_length_take taken _ (by omega), if_neg (by omega), if_neg large, if_neg (by omega)] at early
    cases early

include given

theorem read_frame_call : (readFrame codec source).1 = result ∧ (readFrame codec source).2.bytes = rest := by
  have four := returned_four codec taken result returned
  have length := returned_length codec taken result returned before
  have field : (taken.take 4).length = 4 := by rw [List.length_take]; omega
  have pieces : source.bytes = taken.take 4 ++ (taken.drop 4 ++ rest) := by
    rw [← List.append_assoc, List.take_append_drop, given]
  obtain ⟨middle, read, left⟩ := exactly_enough source _ _ pieces
  rw [field] at read
  rw [call, if_neg (by omega)] at returned
  rw [readFrame, read]
  by_cases large : bodyLength taken > maxFrame
  · rw [if_pos large] at length returned
    have nothing : taken.drop 4 = [] := List.drop_eq_nil_of_le (by omega)
    have tooLarge : (u32OfLe (taken.take 4)).toNat > maxFrame := large
    cases returned
    simp only [if_pos tooLarge, left, nothing, List.nil_append, and_self]
  · rw [if_neg large] at length returned
    rw [if_neg (by omega)] at returned
    obtain ⟨last, finished, after⟩ := exactly_enough middle _ _ left
    have body : (taken.drop 4).length = (u32OfLe (taken.take 4)).toNat := by
      rw [List.length_drop, length, bodyLength]
      omega
    have small : ¬ (u32OfLe (taken.take 4)).toNat > maxFrame := large
    rw [body] at finished
    cases returned
    simp only [if_neg small, finished, after, and_self]

end Uninterrupted

variable (value : T) (accepted : accepts codec value = true)

include accepted

theorem frame_parts : ∃ bytes, codec.serialize value = .ok bytes ∧ bytes.length ≤ maxFrame ∧
    frameOf codec value = u32Le (UInt32.ofNat bytes.length) ++ bytes := by
  obtain ⟨frame, written⟩ := (accepts_iff codec value).mp accepted
  obtain ⟨bytes, encoded, fits, rfl⟩ := (write_frame_ok codec value frame).mp written
  exact ⟨bytes, encoded, fits, frame_of_ok codec value _ written⟩

theorem frame_body_length (taken more : List UInt8) (four : 4 ≤ taken.length)
    (piece : taken <+: frameOf codec value ++ more) :
    4 + bodyLength taken = (frameOf codec value).length ∧ bodyLength taken ≤ maxFrame := by
  obtain ⟨bytes, _, fits, frame⟩ := frame_parts codec value accepted
  have field : taken.take 4 = u32Le (UInt32.ofNat bytes.length) := by
    obtain ⟨rest, joined⟩ := piece
    have both := congrArg (List.take 4) joined
    rw [List.take_append_of_le_length four, frame, List.append_assoc, List.take_append_of_le_length (by rfl)] at both
    rw [both, List.take_of_length_le (by rfl)]
  rw [bodyLength, field, u32_of_le_u32_le, length_field bytes fits, frame, List.length_append]
  exact ⟨rfl, fits⟩

theorem frame_length_pos : 4 ≤ (frameOf codec value).length := by
  obtain ⟨bytes, _, _, frame⟩ := frame_parts codec value accepted
  rw [frame, List.length_append]
  exact Nat.le_add_right 4 bytes.length

theorem call_inside (taken : List UInt8) (piece : taken <+: frameOf codec value) (proper : taken ≠ frameOf codec value) :
    call codec taken = .waiting ∧ taken.length + wanted taken ≤ (frameOf codec value).length := by
  have short : taken.length < (frameOf codec value).length :=
    lt_of_le_of_ne piece.length_le (fun same => proper (piece.eq_of_length same))
  by_cases inField : taken.length < 4
  · have positive := frame_length_pos codec value accepted
    rw [call, if_pos inField, wanted, if_pos inField]
    exact ⟨rfl, by omega⟩
  · obtain ⟨whole, fits⟩ := frame_body_length codec value accepted taken [] (by omega) (by simpa using piece)
    rw [call, if_neg inField, if_neg (by omega), if_pos (by omega), wanted, if_neg inField]
    exact ⟨rfl, by omega⟩

theorem call_whole (inverts : codec.Inverts) : call codec (frameOf codec value) = .returned (.ok value) := by
  obtain ⟨bytes, encoded, _, frame⟩ := frame_parts codec value accepted
  have positive := frame_length_pos codec value accepted
  obtain ⟨whole, fits⟩ := frame_body_length codec value accepted (frameOf codec value) [] positive (by simp)
  rw [call, if_neg (by omega), if_neg (by omega), if_neg (by omega)]
  have body : (frameOf codec value).drop 4 = bytes := by rw [frame]; rfl
  rw [body, inverts value bytes encoded]
  rfl

-- A call that still waits has not taken a whole frame.
theorem waiting_inside (taken more rest : List UInt8) (waiting : call codec taken = .waiting)
    (given : taken ++ rest = frameOf codec value ++ more) :
    taken <+: frameOf codec value ∧ taken ≠ frameOf codec value := by
  have piece : taken <+: frameOf codec value ++ more := ⟨rest, given⟩
  have short : taken.length < (frameOf codec value).length := by
    by_contra long
    have positive := frame_length_pos codec value accepted
    obtain ⟨whole, fits⟩ := frame_body_length codec value accepted taken more (by omega) piece
    rw [call, if_neg (by omega), if_neg (by omega), if_neg (by omega)] at waiting
    cases waiting
  refine ⟨List.prefix_of_prefix_length_le piece (List.prefix_append _ more) short.le, ?_⟩
  intro same
  rw [same] at short
  omega

end Calls

end Accure
