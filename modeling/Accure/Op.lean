import Mathlib.Data.Prod.Lex
import Mathlib.Data.String.Basic

set_option autoImplicit false

namespace Accure

abbrev SiteId := String

structure Dot where
  site : SiteId
  n : Nat
deriving DecidableEq, Repr

def Dot.key (d : Dot) : Lex (String × Nat) := toLex (d.site, d.n)

theorem dot_key_injective : Function.Injective Dot.key := by
  intro a b same
  cases a
  cases b
  simpa [Dot.key] using same

-- The derived Ord of the source: by site, then by number.
instance : LinearOrder Dot := LinearOrder.lift' Dot.key dot_key_injective

inductive Right where
  | admin
  | write
  | read
deriving DecidableEq, Repr

inductive Effect where
  | allow
  | deny
deriving DecidableEq, Repr

inductive TextEdit where
  | insert (pos : Nat) (ch : Char)
  | delete (pos : Nat)
deriving DecidableEq, Repr

structure PolicyOp where
  dot : Dot
  target : SiteId
  right : Right
  effect : Effect
  deps : List Dot
  lastDotSeen : Option Dot
  missingDots : List Dot
deriving DecidableEq, Repr

structure DocOp where
  dot : Dot
  deps : List Dot
  edit : TextEdit
deriving DecidableEq, Repr

inductive Operation where
  | policy (p : PolicyOp)
  | document (d : DocOp)
deriving DecidableEq, Repr

def Operation.dot : Operation → Dot
  | .policy p => p.dot
  | .document d => d.dot

def Operation.asPolicy : Operation → Option PolicyOp
  | .policy p => some p
  | .document _ => none

def Operation.asDocument : Operation → Option DocOp
  | .policy _ => none
  | .document d => some d

@[simp] theorem dot_policy (p : PolicyOp) : (Operation.policy p).dot = p.dot := rfl

@[simp] theorem dot_document (d : DocOp) : (Operation.document d).dot = d.dot := rfl

@[simp] theorem as_policy_some (o : Operation) (p : PolicyOp) : o.asPolicy = some p ↔ o = .policy p := by
  cases o <;> simp [Operation.asPolicy]

@[simp] theorem as_document_some (o : Operation) (d : DocOp) : o.asDocument = some d ↔ o = .document d := by
  cases o <;> simp [Operation.asDocument]

theorem dots_append_nodup {α : Type} (dot : α → Dot) (rows : List α) (x : α) (nodup : (rows.map dot).Nodup)
    (fresh : ∀ y ∈ rows, dot y ≠ dot x) : ((rows ++ [x]).map dot).Nodup := by
  rw [List.map_append, List.map_singleton, List.nodup_append]
  refine ⟨nodup, by simp, ?_⟩
  intro a old b new same
  obtain ⟨y, member, rfl⟩ := List.mem_map.mp old
  exact fresh y member (same.trans (List.mem_singleton.mp new))

structure AccessTuple where
  site : SiteId
  right : Right
deriving DecidableEq, Repr

def PolicyOp.tuple (p : PolicyOp) : AccessTuple := ⟨p.target, p.right⟩

def DocOp.tuple (d : DocOp) : AccessTuple := ⟨d.dot.site, .write⟩

end Accure
