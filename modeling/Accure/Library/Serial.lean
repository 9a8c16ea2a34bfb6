import Mathlib.Data.String.Basic
import Mathlib.Tactic.Ring

set_option autoImplicit false

namespace Serial

abbrev Bytes := List UInt8

-- A format that writes a value with nothing around it and reads it back from the
-- front of whatever follows. Writing may refuse a value.
structure Format (α : Type) where
  put : α → Except String Bytes
  get : Bytes → Except String (α × Bytes)
  sound : ∀ value bytes rest, put value = .ok bytes → get (bytes ++ rest) = .ok (value, rest)

theorem bind_ok {α β : Type} (x : Except String α) (f : α → Except String β) (b : β) :
    (x >>= f) = .ok b ↔ ∃ a, x = .ok a ∧ f a = .ok b := by
  cases x with
  | error e => exact ⟨nofun, nofun⟩
  | ok a => exact ⟨fun result => ⟨a, rfl, result⟩, fun ⟨_, same, result⟩ => Except.ok.inj same ▸ result⟩

section Words

def leBytes : Nat → Nat → Bytes
  | 0, _ => []
  | width + 1, n => UInt8.ofNat n :: leBytes width (n / 256)

def leValue (bytes : Bytes) : Nat := bytes.foldr (fun byte value => byte.toNat + 256 * value) 0

theorem le_bytes_length (width n : Nat) : (leBytes width n).length = width := by
  induction width generalizing n with
  | zero => rfl
  | succ width ih => rw [leBytes, List.length_cons, ih]

theorem le_value_bytes (width n : Nat) : leValue (leBytes width n) = n % 256 ^ width := by
  induction width generalizing n with
  | zero => simp [leBytes, leValue, Nat.mod_one]
  | succ width ih =>
      have tail : leValue (leBytes width (n / 256)) = n / 256 % 256 ^ width := ih (n / 256)
      rw [leValue] at tail
      have power : 256 ^ (width + 1) = 256 * 256 ^ width := by ring
      rw [leBytes, leValue, List.foldr_cons, tail, UInt8.toNat_ofNat', power, Nat.mod_mul]

def splitBytes (count : Nat) (bytes : Bytes) : Except String (Bytes × Bytes) :=
  if count ≤ bytes.length then .ok (bytes.take count, bytes.drop count) else .error "unexpected end of input"

theorem split_bytes_append (count : Nat) (front rest : Bytes) (long : front.length = count) :
    splitBytes count (front ++ rest) = .ok (front, rest) := by
  subst long
  simp [splitBytes]

def word (width : Nat) : Format Nat where
  put n := if n < 256 ^ width then .ok (leBytes width n) else .error "number too large"
  get bytes := do
    let (front, rest) ← splitBytes width bytes
    pure (leValue front, rest)
  sound n bytes rest written := by
    by_cases fits : n < 256 ^ width
    · rw [if_pos fits] at written
      obtain rfl := Except.ok.inj written
      rw [split_bytes_append width _ rest (le_bytes_length width n)]
      change Except.ok (leValue (leBytes width n), rest) = Except.ok (n, rest)
      rw [le_value_bytes, Nat.mod_eq_of_lt fits]
    · rw [if_neg fits] at written
      cases written

end Words

section Combinators

variable {α β : Type}

def Format.via (format : Format α) (encode : β → Option α) (decode : α → Option β)
    (inverse : ∀ b a, encode b = some a → decode a = some b) : Format β where
  put b := match encode b with
    | none => .error "no such value"
    | some a => format.put a
  get bytes := do
    let (a, rest) ← format.get bytes
    match decode a with
    | none => .error "invalid value"
    | some b => pure (b, rest)
  sound b bytes rest written := by
    cases stands : encode b with
    | none => rw [stands] at written; cases written
    | some a =>
        rw [stands] at written
        rw [format.sound a bytes rest written]
        change (match decode a with | none => _ | some b => _) = _
        rw [inverse b a stands]
        rfl

def Format.pair (first : Format α) (second : Format β) : Format (α × β) where
  put value := do
    let front ← first.put value.1
    let back ← second.put value.2
    pure (front ++ back)
  get bytes := do
    let (a, rest) ← first.get bytes
    let (b, rest) ← second.get rest
    pure ((a, b), rest)
  sound value bytes rest written := by
    obtain ⟨front, one, more⟩ := (bind_ok _ _ _).mp written
    obtain ⟨back, two, joined⟩ := (bind_ok _ _ _).mp more
    obtain rfl := Except.ok.inj joined
    rw [List.append_assoc, first.sound value.1 front _ one]
    change (second.get (back ++ rest) >>= fun pair => pure ((value.1, pair.1), pair.2)) = _
    rw [second.sound value.2 back rest two]
    rfl

def Format.putAll (format : Format α) : List α → Except String Bytes
  | [] => pure []
  | a :: tail => do
      let front ← format.put a
      let back ← format.putAll tail
      pure (front ++ back)

def Format.getMany (format : Format α) : Nat → Bytes → Except String (List α × Bytes)
  | 0, bytes => pure ([], bytes)
  | count + 1, bytes => do
      let (a, rest) ← format.get bytes
      let (tail, rest) ← format.getMany count rest
      pure (a :: tail, rest)

theorem get_many_put_all (format : Format α) (values : List α) (bytes rest : Bytes)
    (written : format.putAll values = .ok bytes) : format.getMany values.length (bytes ++ rest) = .ok (values, rest) := by
  induction values generalizing bytes with
  | nil =>
      obtain rfl := Except.ok.inj written
      rfl
  | cons a tail ih =>
      obtain ⟨front, one, more⟩ := (bind_ok _ _ _).mp written
      obtain ⟨back, two, joined⟩ := (bind_ok _ _ _).mp more
      obtain rfl := Except.ok.inj joined
      rw [List.length_cons, Format.getMany, List.append_assoc, format.sound a front _ one]
      change (format.getMany tail.length (back ++ rest) >>= fun pair => pure (a :: pair.1, pair.2)) = _
      rw [ih back two]
      rfl

def Format.list (format : Format α) : Format (List α) where
  put values := do
    let front ← (word 8).put values.length
    let back ← format.putAll values
    pure (front ++ back)
  get bytes := do
    let (count, rest) ← (word 8).get bytes
    format.getMany count rest
  sound values bytes rest written := by
    obtain ⟨front, one, more⟩ := (bind_ok _ _ _).mp written
    obtain ⟨back, two, joined⟩ := (bind_ok _ _ _).mp more
    obtain rfl := Except.ok.inj joined
    rw [List.append_assoc, (word 8).sound values.length front _ one]
    exact get_many_put_all format values back rest two

def Format.variants (variant : α → Nat) (fields : Nat → Format α) : Format α where
  put value := do
    let front ← (word 4).put (variant value)
    let back ← (fields (variant value)).put value
    pure (front ++ back)
  get bytes := do
    let (number, rest) ← (word 4).get bytes
    (fields number).get rest
  sound value bytes rest written := by
    obtain ⟨front, one, more⟩ := (bind_ok _ _ _).mp written
    obtain ⟨back, two, joined⟩ := (bind_ok _ _ _).mp more
    obtain rfl := Except.ok.inj joined
    rw [List.append_assoc, (word 4).sound (variant value) front _ one]
    exact (fields (variant value)).sound value back rest two

def Format.refused (α : Type) : Format α where
  put _ := .error "no such value"
  get _ := .error "invalid value"
  sound _ _ _ written := nomatch written

end Combinators

section Scalars

def byte : Format UInt8 := (word 1).via (fun b => some b.toNat) (fun n => some (UInt8.ofNat n)) (by
  intro b n same
  rw [← Option.some.inj same, UInt8.ofNat_toNat])

def bool : Format Bool := (word 1).via (fun b => some b.toNat)
  (fun n => if n = 0 then some false else if n = 1 then some true else none) (by
  intro b n same
  cases b <;> cases Option.some.inj same <;> rfl)

def string : Format String := byte.list.via (fun s => some s.toByteArray.data.toList)
  (fun bytes => String.fromUTF8? ⟨bytes.toArray⟩) (by
    intro s bytes same
    rw [← Option.some.inj same]
    exact dif_pos s.isValidUTF8)

end Scalars

def Format.option {α : Type} (format : Format α) : Format (Option α) where
  put
    | none => .ok [0]
    | some a => do
        let back ← format.put a
        pure (1 :: back)
  get
    | [] => .error "unexpected end of input"
    | tag :: rest =>
        if tag = 0 then .ok (none, rest)
        else if tag = 1 then do
          let (a, rest) ← format.get rest
          pure (some a, rest)
        else .error "invalid tag"
  sound value bytes rest written := by
    cases value with
    | none =>
        obtain rfl := Except.ok.inj written
        rfl
    | some a =>
        obtain ⟨back, one, joined⟩ := (bind_ok _ _ _).mp written
        obtain rfl := Except.ok.inj joined
        change (format.get (back ++ rest) >>= fun pair => pure (some pair.1, pair.2)) = _
        rw [format.sound a back rest one]
        rfl

end Serial
