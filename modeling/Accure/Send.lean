import Accure.Calls
import Accure.Handle

set_option autoImplicit false

namespace Accure.Send

open Framing

def trim (raw : String) : List Char :=
  ((raw.toList.dropWhile isWhitespace).reverse.dropWhile isWhitespace).reverse

-- The next command main sends, with the arguments after it. Blank arguments and
-- comments are passed over; one that does not parse ends main.
def nextCommand : List String → Option (ClientCommand × List String)
  | [] => none
  | raw :: rest =>
      match trim raw with
      | [] => nextCommand rest
      | '#' :: _ => nextCommand rest
      | letters =>
          match parseCommand (String.ofList letters) with
          | .error _ => none
          | .ok cmd => some (cmd, rest)

inductive Phase where
  | ready
  | draining (print : Bool) (taken : List UInt8)
  | finished
deriving DecidableEq

def Phase.taken : Phase → List UInt8
  | .draining _ taken => taken
  | _ => []

def Phase.waits : Phase → Bool
  | .draining _ _ => true
  | _ => false

structure Answer where
  command : Nat
  after : List ClientCommand
  snapshot : Snapshot
deriving DecidableEq

-- One run of accure-send with the handler of its connection. `lines` are the
-- STATE lines, each with the number of the command it is printed for. The fields
-- from `sent` on are ghost: commands sent and performed, snapshots built, events
-- written to the stream, how many read_frame calls have returned an event, how
-- many bytes all calls have taken, and where in the stream they began.
structure Link where
  cmds : List String
  phase : Phase
  lines : List (Nat × Snapshot)
  inbox : List ClientCommand
  wire : List UInt8
  host : Host
  answering : Bool
  channel : List ServerEvent
  writer : Bool
  sent : List ClientCommand
  performed : List ClientCommand
  answers : List Answer
  written : List ServerEvent
  returned : Nat
  consumed : Nat
  starts : List Nat

def Link.start (cmds : List String) (host : Host) : Link where
  cmds := cmds
  phase := .ready
  lines := []
  inbox := []
  wire := []
  host := host
  answering := false
  channel := []
  writer := true
  sent := []
  performed := []
  answers := []
  written := []
  returned := 0
  consumed := 0
  starts := []

def Link.send (w : Link) (cmd : ClientCommand) (rest : List String) : Link :=
  { w with
    cmds := rest
    phase := .draining (cmd = .snapshot) []
    inbox := w.inbox ++ [cmd]
    sent := w.sent ++ [cmd]
    starts := w.starts ++ [w.consumed] }

def Link.take (w : Link) (print : Bool) (event : ServerEvent) : Link :=
  match event with
  | .state snapshot =>
      { w with
        phase := .ready
        lines := if print then w.lines ++ [(w.sent.length - 1, snapshot)] else w.lines
        returned := w.returned + 1 }
  | _ => { w with phase := .draining print [], returned := w.returned + 1, starts := w.starts ++ [w.consumed] }

def Link.read (codec : Bincode ServerEvent) (w : Link) (print : Bool) (taken got rest : List UInt8) : Link :=
  let read := { w with wire := rest, consumed := w.consumed + got.length }
  match call codec (taken ++ got) with
  | .waiting => { read with phase := .draining print (taken ++ got) }
  | .returned (.ok event) => read.take print event
  | .returned (.error _) => { read with phase := .finished }

def Link.push (w : Link) (event : ServerEvent) : Link :=
  if w.writer then { w with channel := w.channel ++ [event] } else w

def Link.perform (w : Link) (cmd : ClientCommand) (rest : List ClientCommand) : Link :=
  let after : Link := { w with inbox := rest, host := (w.host.perform cmd).1, performed := w.performed ++ [cmd] }
  match (w.host.perform cmd).2 with
  | some e => after.push (.error e)
  | none => { after with answering := true }

def Link.answer (w : Link) : Link :=
  let snapshot := w.host.buildSnapshot
  let after : Link :=
    { w with answering := false, answers := w.answers ++ [⟨w.performed.length - 1, w.performed, snapshot⟩] }
  after.push (.state snapshot)

-- The moves of accure-send and of the tasks behind its connection, in any order
-- and after any delay. `mayTimeOut` restricts when the deadline fires and
-- `mayAnswer` when a snapshot is built. Other tasks may do anything to the host
-- while it is not locked, and have anything traced. A writer that ends may
-- leave a piece of a frame behind.
inductive Move (codec : Bincode ServerEvent) (mayTimeOut mayAnswer : Link → Prop) : Link → Link → Prop where
  | send (w : Link) (cmd : ClientCommand) (rest : List String) (idle : w.phase = .ready)
      (next : nextCommand w.cmds = some (cmd, rest)) : Move codec mayTimeOut mayAnswer w (w.send cmd rest)
  | stop (w : Link) (idle : w.phase = .ready) : Move codec mayTimeOut mayAnswer w { w with phase := .finished }
  | read (w : Link) (print : Bool) (taken got rest : List UInt8) (busy : w.phase = .draining print taken)
      (some_ : got ≠ []) (limit : got.length ≤ wanted taken) (split : w.wire = got ++ rest) :
      Move codec mayTimeOut mayAnswer w (w.read codec print taken got rest)
  | readFails (w : Link) (print : Bool) (taken : List UInt8) (busy : w.phase = .draining print taken) :
      Move codec mayTimeOut mayAnswer w { w with phase := .finished }
  | deadline (w : Link) (print : Bool) (taken : List UInt8) (busy : w.phase = .draining print taken)
      (allowed : mayTimeOut w) : Move codec mayTimeOut mayAnswer w { w with phase := .ready }
  | perform (w : Link) (cmd : ClientCommand) (rest : List ClientCommand) (next : w.inbox = cmd :: rest)
      (free : w.answering = false) : Move codec mayTimeOut mayAnswer w (w.perform cmd rest)
  | answer (w : Link) (busy : w.answering = true) (allowed : mayAnswer w) : Move codec mayTimeOut mayAnswer w w.answer
  | trace (w : Link) (text : String) : Move codec mayTimeOut mayAnswer w (w.push (.trace text))
  | others (w : Link) (host : Host) : Move codec mayTimeOut mayAnswer w { w with host := host }
  | write (w : Link) (event : ServerEvent) (rest : List ServerEvent) (alive : w.writer = true)
      (next : w.channel = event :: rest) (accepted : accepts codec event = true) :
      Move codec mayTimeOut mayAnswer w { w with
        channel := rest
        wire := w.wire ++ frameOf codec event
        written := w.written ++ [event] }
  | writerEnds (w : Link) (piece : List UInt8) (alive : w.writer = true)
      (cut : piece = [] ∨ ∃ event, accepts codec event = true ∧ piece <+: frameOf codec event ∧
        piece ≠ frameOf codec event) :
      Move codec mayTimeOut mayAnswer w { w with writer := false, channel := [], wire := w.wire ++ piece }

inductive Run (codec : Bincode ServerEvent) (mayTimeOut mayAnswer : Link → Prop) (cmds : List String) (host : Host) :
    Link → Prop where
  | start : Run codec mayTimeOut mayAnswer cmds host (Link.start cmds host)
  | move (w next : Link) (before : Run codec mayTimeOut mayAnswer cmds host w)
      (move : Move codec mayTimeOut mayAnswer w next) : Run codec mayTimeOut mayAnswer cmds host next

end Accure.Send
