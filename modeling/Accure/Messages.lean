import Accure.Library.Serial
import Accure.Handle
import Accure.Wire

set_option autoImplicit false

namespace Accure

open Serial

-- bincode::serialize and bincode::deserialize for the values of a format. What
-- follows the value in the buffer is ignored.
def Bincode.ofFormat {T : Type} (format : Format T) : Bincode T where
  serialize := format.put
  deserialize bytes := (format.get bytes).map Prod.fst

theorem of_format_inverts {T : Type} (format : Format T) : (Bincode.ofFormat format).Inverts := by
  intro value bytes encoded
  have read := format.sound value bytes [] encoded
  rw [List.append_nil] at read
  simp only [Bincode.ofFormat, read]
  rfl

def Right.index : Right → Nat
  | .admin => 0
  | .write => 1
  | .read => 2

def rightFormat : Format Right := (word 4).via (fun right => some right.index)
  (fun n => [Right.admin, .write, .read][n]?) (by
    intro right n same
    cases right <;> cases Option.some.inj same <;> rfl)

def snapshotFormat : Format Snapshot :=
  (string.pair (string.pair ((string.pair (rightFormat.pair bool)).list.pair ((word 8).pair string.list)))).via
    (fun s => some (s.site, s.document, s.policy, s.logLen, s.peers))
    (fun (site, document, policy, logLen, peers) => some ⟨site, document, policy, logLen, peers⟩) (by
      rintro snapshot fields same
      rw [← Option.some.inj same])

def ServerEvent.index : ServerEvent → Nat
  | .state _ => 0
  | .trace _ => 1
  | .error _ => 2

def ServerEvent.fields : Nat → Format ServerEvent
  | 0 => snapshotFormat.via (fun | .state s => some s | _ => none) (fun s => some (.state s)) (by
      intro event s same
      cases event <;> cases same
      rfl)
  | 1 => string.via (fun | .trace s => some s | _ => none) (fun s => some (.trace s)) (by
      intro event s same
      cases event <;> cases same
      rfl)
  | 2 => string.via (fun | .error s => some s | _ => none) (fun s => some (.error s)) (by
      intro event s same
      cases event <;> cases same
      rfl)
  | _ => .refused ServerEvent

def eventCodec : Bincode ServerEvent := .ofFormat (.variants ServerEvent.index ServerEvent.fields)

theorem event_codec_inverts : eventCodec.Inverts := of_format_inverts _

end Accure
