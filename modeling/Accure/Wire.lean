import Accure.Library.Framing

set_option autoImplicit false

namespace Accure

open Framing

def maxFrame : Nat := 16 * 1024 * 1024

inductive IoError where
  | invalidData (text : String)
  | unexpectedEof
deriving DecidableEq, Repr

def IoError.frameTooLarge : IoError := .invalidData "frame too large"

-- bincode for the values of one type.
structure Bincode (T : Type) where
  serialize : T → Except String (List UInt8)
  deserialize : List UInt8 → Except String T

def u32Le (n : UInt32) : List UInt8 :=
  [UInt8.ofNat n.toNat, UInt8.ofNat (n.toNat / 0x100), UInt8.ofNat (n.toNat / 0x10000), UInt8.ofNat (n.toNat / 0x1000000)]

def u32OfLe (bytes : List UInt8) : UInt32 := UInt32.ofNat (bytes.foldr (fun byte value => byte.toNat + 0x100 * value) 0)

theorem u32_of_le_u32_le (n : UInt32) : u32OfLe (u32Le n) = n := by
  apply UInt32.toNat_inj.mp
  have bound := n.toNat_lt
  simp only [u32OfLe, u32Le, List.foldr_cons, List.foldr_nil, UInt8.toNat_ofNat', UInt32.toNat_ofNat']
  omega

section Frame

variable {T : Type} (codec : Bincode T)

-- What write_frame puts on the stream.
def writeFrame (value : T) : Except IoError (List UInt8) :=
  match codec.serialize value with
  | .error e => .error (.invalidData e)
  | .ok bytes =>
      if bytes.length > maxFrame then .error .frameTooLarge
      else .ok (u32Le (UInt32.ofNat bytes.length) ++ bytes)

def readFrame (source : Source UInt8) : Except IoError T × Source UInt8 :=
  match source.exactly 4 with
  | (none, source) => (.error .unexpectedEof, source)
  | (some field, source) =>
      let len := (u32OfLe field).toNat
      if len > maxFrame then (.error .frameTooLarge, source)
      else
        match source.exactly len with
        | (none, source) => (.error .unexpectedEof, source)
        | (some buf, source) => ((codec.deserialize buf).mapError .invalidData, source)

def produced (value : T) : Option (List UInt8) := (writeFrame codec value).toOption

def frameOf (value : T) : List UInt8 := (produced codec value).getD []

def accepts (value : T) : Bool := (writeFrame codec value).isOk

def Bincode.Inverts : Prop :=
  ∀ value bytes, codec.serialize value = .ok bytes → codec.deserialize bytes = .ok value

theorem length_field (bytes : List UInt8) (fits : bytes.length ≤ maxFrame) :
    (UInt32.ofNat bytes.length).toNat = bytes.length := by
  rw [UInt32.toNat_ofNat']
  exact Nat.mod_eq_of_lt (lt_of_le_of_lt fits (by decide))

theorem write_frame_ok (value : T) (frame : List UInt8) : writeFrame codec value = .ok frame ↔
    ∃ bytes, codec.serialize value = .ok bytes ∧ bytes.length ≤ maxFrame ∧
      frame = u32Le (UInt32.ofNat bytes.length) ++ bytes := by
  rw [writeFrame]
  cases codec.serialize value with
  | error e => simp
  | ok bytes =>
      by_cases large : bytes.length > maxFrame
      · simp only [if_pos large, reduceCtorEq, Except.ok.injEq, false_iff]
        rintro ⟨_, rfl, fits, _⟩
        omega
      · simp only [if_neg large, Except.ok.injEq, eq_comm (b := frame)]
        constructor
        · intro same
          exact ⟨bytes, rfl, by omega, same⟩
        · rintro ⟨_, rfl, _, same⟩
          exact same

theorem accepts_iff (value : T) : accepts codec value = true ↔ ∃ frame, writeFrame codec value = .ok frame := by
  rw [accepts]
  cases writeFrame codec value <;> simp [Except.isOk, Except.toBool]

theorem frame_of_ok (value : T) (frame : List UInt8) (written : writeFrame codec value = .ok frame) :
    frameOf codec value = frame := by rw [frameOf, produced, written]; rfl

variable (inverts : codec.Inverts)

include inverts

theorem read_frame_whole (value : T) (source : Source UInt8) (rest : List UInt8) (accepted : accepts codec value = true)
    (given : source.bytes = frameOf codec value ++ rest) :
    (readFrame codec source).1 = .ok value ∧ (readFrame codec source).2.bytes = rest := by
  obtain ⟨frame, written⟩ := (accepts_iff codec value).mp accepted
  obtain ⟨bytes, encoded, fits, rfl⟩ := (write_frame_ok codec value frame).mp written
  rw [frame_of_ok codec value _ written, List.append_assoc] at given
  obtain ⟨middle, field, left⟩ := exactly_enough source _ _ given
  obtain ⟨last, body, after⟩ := exactly_enough middle _ _ left
  have four : (u32Le (UInt32.ofNat bytes.length)).length = 4 := rfl
  rw [four] at field
  have small : ¬ bytes.length > maxFrame := Nat.not_lt.mpr fits
  rw [readFrame, field]
  simp only [u32_of_le_u32_le, length_field bytes fits, if_neg small, body, after, and_true]
  rw [inverts value bytes encoded]
  rfl

omit inverts in
theorem read_frame_cut (value : T) (source : Source UInt8) (accepted : accepts codec value = true)
    (piece : source.bytes <+: frameOf codec value) (proper : source.bytes ≠ frameOf codec value) :
    (readFrame codec source).1 = .error .unexpectedEof ∧ (readFrame codec source).2.bytes = [] := by
  obtain ⟨frame, written⟩ := (accepts_iff codec value).mp accepted
  obtain ⟨bytes, encoded, fits, rfl⟩ := (write_frame_ok codec value frame).mp written
  rw [frame_of_ok codec value _ written] at piece proper
  have four : (u32Le (UInt32.ofNat bytes.length)).length = 4 := rfl
  have short : source.bytes.length < (u32Le (UInt32.ofNat bytes.length) ++ bytes).length :=
    lt_of_le_of_ne piece.length_le (fun same => proper (piece.eq_of_length same))
  rw [List.length_append, four] at short
  by_cases inside : source.bytes.length < 4
  · obtain ⟨after, missing, left⟩ := exactly_short source 4 inside
    rw [readFrame, missing]
    exact ⟨rfl, left⟩
  · -- The length field is there and the body is not.
    have start : u32Le (UInt32.ofNat bytes.length) <+: source.bytes :=
      List.prefix_of_prefix_length_le (List.prefix_append _ bytes) piece (by rw [four]; omega)
    obtain ⟨rest, split⟩ := start
    obtain ⟨middle, field, left⟩ := exactly_enough source _ _ split.symm
    have lengths := congrArg List.length split
    rw [List.length_append, four] at lengths
    obtain ⟨after, missing, ended⟩ := exactly_short middle bytes.length (by rw [left]; omega)
    have small : ¬ bytes.length > maxFrame := Nat.not_lt.mpr fits
    rw [four] at field
    rw [readFrame, field]
    simp only [u32_of_le_u32_le, length_field bytes fits, if_neg small, missing]
    exact ⟨trivial, ended⟩

omit inverts in
theorem read_frame_end (source : Source UInt8) (empty : source.bytes = []) :
    (readFrame codec source).1 = .error .unexpectedEof ∧ (readFrame codec source).2.bytes = [] := by
  obtain ⟨after, missing, left⟩ := exactly_short source 4 (by simp [empty])
  rw [readFrame, missing]
  exact ⟨rfl, left⟩

theorem read_frame_delimits : Delimits (fun value => accepts codec value = true) (frameOf codec) Source.bytes
    (readFrame codec) .ok (.error .unexpectedEof) where
  whole value source rest accepted given := read_frame_whole codec inverts value source rest accepted given
  cut value source accepted piece proper := read_frame_cut codec value source accepted piece proper
  empty source empty := read_frame_end codec source empty

end Frame

def writtenFrames {T : Type} (codec : Bincode T) (values : List T) : List UInt8 :=
  (values.filterMap (produced codec)).flatten

theorem written_frames_stream {T : Type} (codec : Bincode T) (values : List T) :
    writtenFrames codec values = stream (frameOf codec) (values.filter (accepts codec)) := by
  induction values with
  | nil => rfl
  | cons value tail ih =>
      rw [writtenFrames, stream] at ih ⊢
      cases outcome : writeFrame codec value with
      | error e =>
          have nothing : produced codec value = none := by rw [produced, outcome]; rfl
          have refused : ¬ accepts codec value = true := by simp [accepts, outcome, Except.isOk, Except.toBool]
          rw [List.filterMap_cons_none nothing, List.filter_cons_of_neg refused, ih]
      | ok frame =>
          have something : produced codec value = some frame := by rw [produced, outcome]; rfl
          have accepted : accepts codec value = true := (accepts_iff codec value).mpr ⟨frame, outcome⟩
          rw [List.filterMap_cons_some something, List.filter_cons_of_pos accepted, List.map_cons, List.flatten_cons,
            List.flatten_cons, frame_of_ok codec value frame outcome, ih]

theorem accepts_false_iff {T : Type} (codec : Bincode T) (value : T) (bytes : List UInt8)
    (encoded : codec.serialize value = .ok bytes) : accepts codec value = false ↔ maxFrame < bytes.length := by
  rw [← Bool.not_eq_true, accepts_iff, not_iff_comm, Nat.not_lt]
  constructor
  · intro fits
    exact ⟨_, (write_frame_ok codec value _).mpr ⟨bytes, encoded, fits, rfl⟩⟩
  · rintro ⟨frame, written⟩
    obtain ⟨other, same, fits, _⟩ := (write_frame_ok codec value frame).mp written
    exact Except.ok.inj (same.symm.trans encoded) ▸ fits

theorem frames_round_trip {T : Type} (codec : Bincode T) (inverts : codec.Inverts) (values : List T) (cut : Nat)
    (ready : Nat → Nat) :
    (∃ count ≤ (values.filter (accepts codec)).length,
      (writtenFrames codec ((values.filter (accepts codec)).take count)).length ≤ cut ∧
      (count < (values.filter (accepts codec)).length →
        cut < (writtenFrames codec ((values.filter (accepts codec)).take (count + 1))).length) ∧
      ∀ turns, repeatedly (readFrame codec) turns ⟨(writtenFrames codec values).take cut, ready⟩ =
        (((values.filter (accepts codec)).take count).map .ok).take turns ++
          List.replicate (turns - count) (.error .unexpectedEof)) ∧
    ∀ value bytes, codec.serialize value = .ok bytes →
      (writeFrame codec value = .error .frameTooLarge ↔ maxFrame < bytes.length) ∧
      (accepts codec value = false ↔ maxFrame < bytes.length) ∧
      (accepts codec value = true → (UInt32.ofNat bytes.length).toNat = bytes.length) := by
  constructor
  · have accepted : ∀ v ∈ values.filter (accepts codec), accepts codec v = true :=
      fun v member => (List.mem_filter.mp member).2
    have frames : ∀ count, writtenFrames codec ((values.filter (accepts codec)).take count) =
        stream (frameOf codec) ((values.filter (accepts codec)).take count) := by
      intro count
      rw [written_frames_stream, List.filter_eq_self.mpr]
      exact fun v member => accepted v (List.mem_of_mem_take member)
    simp only [frames]
    exact cut_repeatedly _ (frameOf codec) Source.bytes (readFrame codec) .ok (.error .unexpectedEof)
      (read_frame_delimits codec inverts) (values.filter (accepts codec)) accepted cut
      ⟨(writtenFrames codec values).take cut, ready⟩ (by rw [written_frames_stream])
  · intro value bytes encoded
    have refused := accepts_false_iff codec value bytes encoded
    refine ⟨?_, refused, ?_⟩
    · rw [writeFrame, encoded]
      by_cases large : bytes.length > maxFrame
      · simp [large]
      · simp [large]
    · intro accepted
      apply length_field
      by_contra large
      rw [refused.mpr (Nat.not_le.mp large)] at accepted
      cases accepted

def byteCodec : Bincode UInt8 where
  serialize byte := .ok [byte]
  deserialize
    | [] => .error "unexpected end of file"
    | byte :: _ => .ok byte

theorem byte_codec_inverts : byteCodec.Inverts := fun _ _ encoded => Except.ok.inj encoded ▸ rfl

theorem two_bytes_cut : ∃ count ≤ ([7, 9].filter (accepts byteCodec)).length,
    (writtenFrames byteCodec (([7, 9].filter (accepts byteCodec)).take count)).length ≤ 8 ∧
    (count < ([7, 9].filter (accepts byteCodec)).length →
      8 < (writtenFrames byteCodec (([7, 9].filter (accepts byteCodec)).take (count + 1))).length) ∧
    ∀ turns, repeatedly (readFrame byteCodec) turns ⟨(writtenFrames byteCodec [7, 9]).take 8, fun _ => 0⟩ =
      ((([7, 9].filter (accepts byteCodec)).take count).map .ok).take turns ++
        List.replicate (turns - count) (.error .unexpectedEof) :=
  (frames_round_trip byteCodec byte_codec_inverts [7, 9] 8 (fun _ => 0)).1

end Accure
