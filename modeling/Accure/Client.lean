import Accure.Library.Pipe
import Accure.Panes
import Accure.Replies

set_option autoImplicit false

namespace Accure.Terminal

inductive Phase where
  | ready
  | sending (cmd : ClientCommand)
  | refreshing
  | finished
deriving DecidableEq, Repr

def Phase.pending : Phase → List ClientCommand
  | .sending cmd => [cmd, .snapshot]
  | .refreshing => [.snapshot]
  | _ => []

-- Ghost: what a command was answered with, the commands performed up to then, and
-- the host it was answered from.
structure Reply where
  after : List ClientCommand
  event : ServerEvent
  host : Host

inductive Hand where
  | free
  | performed
  | answer (event : ServerEvent) (host : Host)

def Hand.count : Hand → Nat
  | .free => 0
  | _ => 1

-- One run of accure-client with the handler of its connection: the channel of
-- commands to the writer task, the stream to the server, the handler's channel of
-- events, the stream back, and the channel of events to run. The lines entered
-- and the replies are ghost.
structure Link where
  app : AppState
  phase : Phase
  commands : Pipe ClientCommand
  up : Pipe ClientCommand
  host : Host
  hand : Hand
  channel : Pipe ServerEvent
  down : Pipe ServerEvent
  events : Pipe ServerEvent
  lines : List String
  replies : List Reply

def Link.start (serverAddr : String) (host : Host) : Link where
  app := AppState.new serverAddr
  phase := .ready
  commands := .start [.subscribe, .snapshot]
  up := .start []
  host := host
  hand := .free
  channel := .start []
  down := .start []
  events := .start []
  lines := []
  replies := []

def Link.key (w : Link) (key : KeyEvent) (handled : Handled) : Link :=
  { w with
    app := handled.app
    phase :=
      match handled.command with
      | some cmd => .sending cmd
      | none => if handled.quit then .finished else .ready
    lines := w.lines ++ (w.app.enters (.key key)).toList }

def Link.reply (w : Link) (event : ServerEvent) (host : Host) : Link :=
  { w with
    hand := .free
    channel := w.channel.push event
    replies := w.replies ++ [⟨w.up.passed, event, host⟩] }

def Link.perform (w : Link) (cmd : ClientCommand) (rest : List ClientCommand) (front : w.up.inside = cmd :: rest) : Link :=
  { w with
    up := w.up.pop cmd rest front
    host := (w.host.perform cmd).1
    hand :=
      match (w.host.perform cmd).2 with
      | some e => .answer (.error e) (w.host.perform cmd).1
      | none => .performed }

theorem perform_hand_refused (w : Link) (cmd : ClientCommand) (rest : List ClientCommand) (front : w.up.inside = cmd :: rest)
    (e : String) (refused : (w.host.perform cmd).2 = some e) :
    (w.perform cmd rest front).hand = .answer (.error e) (w.host.perform cmd).1 := by
  rw [Link.perform, refused]

-- The moves of accure-client and of the tasks behind its connection, in any order
-- and after any delay. The streams may break with a part of what is on them, and
-- a task that ends drops what it has not taken. Other tasks may do anything to
-- the host while it is not locked, and have anything traced.
inductive Move : Link → Link → Prop where
  | event (w : Link) (event : ServerEvent) (rest : List ServerEvent) (idle : w.phase = .ready)
      (front : w.events.inside = event :: rest) :
      Move w { w with app := applyServerEvent w.app event, events := w.events.pop event rest front }
  | closed (w : Link) (idle : w.phase = .ready) (gone : w.events.alive = false) (empty : w.events.inside = []) :
      Move w { w with app := w.app.pushError "server connection closed" }
  | key (w : Link) (key : KeyEvent) (handled : Handled) (idle : w.phase = .ready)
      (goes : handleKey w.app key = some handled) : Move w (w.key key handled)
  | keyError (w : Link) (e : String) (idle : w.phase = .ready) :
      Move w { w with app := w.app.pushError ("input error: " ++ e) }
  | stop (w : Link) (idle : w.phase = .ready) : Move w { w with phase := .finished }
  | send (w : Link) (cmd : ClientCommand) (busy : w.phase = .sending cmd) (alive : w.commands.alive = true) :
      Move w { w with phase := .refreshing, commands := w.commands.push cmd }
  | sendFails (w : Link) (cmd : ClientCommand) (busy : w.phase = .sending cmd) (gone : w.commands.alive = false) :
      Move w { w with phase := .ready, app := w.app.pushError "server channel closed" }
  | refresh (w : Link) (busy : w.phase = .refreshing) (alive : w.commands.alive = true) :
      Move w { w with phase := .ready, commands := w.commands.push .snapshot }
  | refreshFails (w : Link) (busy : w.phase = .refreshing) (gone : w.commands.alive = false) :
      Move w { w with phase := .ready }
  | write (w : Link) (cmd : ClientCommand) (rest : List ClientCommand) (front : w.commands.inside = cmd :: rest) :
      Move w { w with commands := w.commands.pop cmd rest front, up := w.up.push cmd }
  | writerEnds (w : Link) : Move w { w with commands := w.commands.cut 0 }
  | upBreaks (w : Link) (kept : Nat) : Move w { w with up := w.up.cut kept }
  | perform (w : Link) (cmd : ClientCommand) (rest : List ClientCommand) (free : w.hand = .free)
      (front : w.up.inside = cmd :: rest) : Move w (w.perform cmd rest front)
  | build (w : Link) (performed : w.hand = .performed) :
      Move w { w with hand := .answer (.state w.host.buildSnapshot) w.host }
  | reply (w : Link) (event : ServerEvent) (host : Host) (busy : w.hand = .answer event host) : Move w (w.reply event host)
  | trace (w : Link) (text : String) : Move w { w with channel := w.channel.push (.trace text) }
  | others (w : Link) (host : Host) : Move w { w with host := host }
  | handlerEnds (w : Link) (free : w.hand = .free) : Move w { w with up := w.up.cut 0, channel := w.channel.cut 0 }
  | serverWrite (w : Link) (event : ServerEvent) (rest : List ServerEvent) (front : w.channel.inside = event :: rest) :
      Move w { w with channel := w.channel.pop event rest front, down := w.down.push event }
  | serverWriterEnds (w : Link) : Move w { w with channel := w.channel.cut 0 }
  | downBreaks (w : Link) (kept : Nat) : Move w { w with down := w.down.cut kept }
  | read (w : Link) (event : ServerEvent) (rest : List ServerEvent) (front : w.down.inside = event :: rest) :
      Move w { w with down := w.down.pop event rest front, events := w.events.push event }
  | readerEnds (w : Link) : Move w { w with down := w.down.cut 0, events := w.events.cut w.events.inside.length }

inductive Run (serverAddr : String) (host : Host) : Link → Prop where
  | start : Run serverAddr host (Link.start serverAddr host)
  | move (w next : Link) (before : Run serverAddr host w) (move : Move w next) : Run serverAddr host next

def typed (lines : List String) : List ClientCommand :=
  [.subscribe, .snapshot] ++ (lines.filterMap readCommand).flatMap fun cmd => [cmd, .snapshot]

theorem typed_append (lines : List String) (line : Option String) :
    typed (lines ++ line.toList) = typed lines ++ ((line.bind readCommand).toList.flatMap fun cmd => [cmd, .snapshot]) := by
  rw [typed, typed, List.filterMap_append, List.flatMap_append, List.append_assoc]
  cases line with
  | none => rfl
  | some line => cases read : readCommand line <;> simp [read]

def isReply : ServerEvent → Bool
  | .trace _ => false
  | _ => true

def stateOf : ServerEvent → Option Snapshot
  | .state s => some s
  | _ => none

def Reply.Answers (reply : Reply) (cmd : ClientCommand) : Prop :=
  match reply.event with
  | .state s => s = reply.host.buildSnapshot
  | .error e => reply.host.perform cmd = (reply.host, some e)
  | .trace _ => False

theorem perform_refused (host : Host) (cmd : ClientCommand) (e : String) (refused : (host.perform cmd).2 = some e) :
    host.perform cmd = (host, some e) := by
  have edits (edit : TextEdit) (refused : (host.edit edit).2 = some e) : host.edit edit = (host, some e) := by
    rw [Host.edit] at refused ⊢
    cases updated : updateDocument host.state host.doc edit with
    | ok update => simp [updated] at refused
    | error e' => simpa [updated] using refused
  have changes (target : SiteId) (right : Right) (effect : Effect) (refused : (host.change target right effect).2 = some e) :
      host.change target right effect = (host, some e) := by
    rw [Host.change] at refused ⊢
    cases updated : updatePolicy host.state host.doc target right effect with
    | ok update => simp [updated] at refused
    | error e' => simpa [updated] using refused
  cases cmd with
  | insert pos ch => exact edits _ refused
  | delete pos => exact edits _ refused
  | allow target right => exact changes _ _ _ refused
  | deny target right => exact changes _ _ _ refused
  | snapshot => cases refused
  | subscribe => cases refused

structure Linked (w : Link) : Prop where
  sent : w.commands.entered <+: typed w.lines
  pending : w.commands.alive = true → w.commands.entered ++ w.phase.pending = typed w.lines
  up : w.up.entered = w.commands.passed
  down : w.down.entered = w.channel.passed
  events : w.events.entered = w.down.passed
  answered : w.up.passed.length = w.replies.length + w.hand.count
  replies : w.channel.entered.filter isReply = w.replies.map Reply.event
  answers : ∀ k reply, w.replies[k]? = some reply →
    ∃ cmd, w.up.passed[k]? = some cmd ∧ reply.after = w.up.passed.take (k + 1) ∧ reply.Answers cmd
  shown : w.app.snapshot = (w.events.passed.filterMap stateOf).getLast?
  hand : ∀ event host, w.hand = .answer event host →
    isReply event = true ∧ ∀ cmd, w.up.passed.getLast? = some cmd → (Reply.mk w.up.passed event host).Answers cmd

theorem linked_start (serverAddr : String) (host : Host) : Linked (Link.start serverAddr host) := by
  refine ⟨List.prefix_rfl, fun _ => rfl, rfl, rfl, rfl, rfl, rfl, ?_, rfl, nofun⟩
  intro k reply member
  simp [Link.start] at member

theorem recall_snapshot (app : AppState) (i : Nat) (handled : Handled) (goes : app.recall i = some handled) :
    handled.app.snapshot = app.snapshot := by
  rw [AppState.recall, Option.map_eq_some_iff] at goes
  obtain ⟨line, _, rfl⟩ := goes
  rfl

theorem submit_snapshot (app : AppState) (line : String) : (app.submit line).app.snapshot = app.snapshot := by
  rw [AppState.submit]
  split
  · rfl
  split
  · rfl
  split
  · rfl
  split
  · rfl
  · cases parseCommand (String.ofList (Send.trim line)) with
    | ok cmd => rfl
    | error e => cases e <;> rfl

theorem key_snapshot (app : AppState) (key : KeyEvent) (handled : Handled) (goes : handleKey app key = some handled) :
    handled.app.snapshot = app.snapshot := by
  rw [handleKey] at goes
  split at goes
  · rw [← Option.some.inj goes]
    rfl
  split at goes
  · rw [← Option.some.inj goes]
  cases code : key.code with
  | up =>
      rw [code] at goes
      dsimp only at goes
      split at goes
      · rw [← Option.some.inj goes]
        rfl
      split at goes
      · exact recall_snapshot app _ handled goes
      · exact recall_snapshot app _ handled goes
      · exact recall_snapshot app _ handled goes
  | down =>
      rw [code] at goes
      dsimp only at goes
      split at goes
      · rw [← Option.some.inj goes]
        rfl
      split at goes
      · exact recall_snapshot app _ handled goes
      · rw [← Option.some.inj goes]
        rfl
  | enter =>
      rw [code] at goes
      rw [← Option.some.inj goes]
      exact submit_snapshot _ app.input
  | esc =>
      rw [code] at goes
      rw [← Option.some.inj goes]
  | char c =>
      rw [code] at goes
      rw [← Option.some.inj goes]
      rfl
  | backspace =>
      rw [code] at goes
      rw [← Option.some.inj goes]
      rfl
  | other =>
      rw [code] at goes
      rw [← Option.some.inj goes]
      rfl

section Linked

variable (w : Link) (linked : Linked w)

include linked

theorem linked_event (event : ServerEvent) (rest : List ServerEvent) (front : w.events.inside = event :: rest) :
    Linked { w with app := applyServerEvent w.app event, events := w.events.pop event rest front } := by
  refine { linked with shown := ?_, events := linked.events }
  rw [Pipe.pop_passed, List.filterMap_append]
  cases event with
  | state s => simp [applyServerEvent, stateOf]
  | trace t => simpa [applyServerEvent, AppState.pushTrace, stateOf] using linked.shown
  | error e => simpa [applyServerEvent, AppState.pushError, stateOf] using linked.shown

theorem linked_key (key : KeyEvent) (handled : Handled) (idle : w.phase = .ready)
    (goes : handleKey w.app key = some handled) : Linked (w.key key handled) := by
  have command := (key_enters w.app key handled goes).1
  have more := typed_append w.lines (w.app.enters (.key key))
  rw [← command] at more
  refine { linked with sent := ?_, pending := ?_, shown := ?_ }
  · change w.commands.entered <+: typed (w.lines ++ (w.app.enters (.key key)).toList)
    rw [more]
    exact linked.sent.trans (List.prefix_append _ _)
  · intro alive
    change w.commands.entered ++ (w.key key handled).phase.pending = typed (w.lines ++ (w.app.enters (.key key)).toList)
    have whole := linked.pending alive
    rw [idle] at whole
    replace whole := (List.append_nil _).symm.trans whole
    rw [more, whole, Link.key]
    cases handled.command with
    | some cmd => rfl
    | none => cases handled.quit <;> rfl
  · exact (key_snapshot w.app key handled goes).trans linked.shown

theorem linked_send (cmd : ClientCommand) (phase : Phase) (split : w.phase.pending = cmd :: phase.pending)
    (alive : w.commands.alive = true) : Linked { w with phase := phase, commands := w.commands.push cmd } := by
  have whole : w.commands.entered ++ [cmd] ++ phase.pending = typed w.lines := by
    rw [← linked.pending alive, split, List.append_assoc, List.singleton_append]
  exact { linked with sent := ⟨phase.pending, whole⟩, pending := fun _ => whole, up := linked.up }

theorem linked_unsent (phase : Phase) (app : AppState) (same : app.snapshot = w.app.snapshot)
    (gone : w.commands.alive = false) : Linked { w with phase := phase, app := app } :=
  { linked with pending := fun alive => absurd (gone.symm.trans alive) Bool.false_ne_true, shown := same.trans linked.shown }

theorem linked_perform (cmd : ClientCommand) (rest : List ClientCommand) (free : w.hand = .free)
    (front : w.up.inside = cmd :: rest) : Linked (w.perform cmd rest front) := by
  have answered := linked.answered
  rw [free] at answered
  have busy : (w.perform cmd rest front).hand.count = 1 := by
    rw [Link.perform]
    cases (w.host.perform cmd).2 <;> rfl
  refine { linked with up := linked.up, answered := ?_, answers := ?_, hand := ?_ }
  · rw [busy]
    simpa [Link.perform, Hand.count] using answered
  · intro k reply found
    obtain ⟨old, here, after, answer⟩ := linked.answers k reply found
    have inside : k < w.up.passed.length := (List.getElem?_eq_some_iff.mp here).1
    refine ⟨old, ?_, ?_, answer⟩
    · rw [Link.perform, Pipe.pop_passed, List.getElem?_append_left inside]
      exact here
    · rw [Link.perform, Pipe.pop_passed, List.take_append_of_le_length inside]
      exact after
  · intro event host holds
    rw [Link.perform] at holds ⊢
    cases refused : (w.host.perform cmd).2 with
    | none =>
        rw [refused] at holds
        cases holds
    | some e =>
        rw [refused] at holds
        cases holds
        refine ⟨rfl, ?_⟩
        intro last same
        rw [Pipe.pop_passed, List.getLast?_append, List.getLast?_singleton, Option.some_or, Option.some.injEq] at same
        have kept := perform_refused w.host cmd e refused
        simp only [Reply.Answers, ← same, kept]

theorem linked_reply (event : ServerEvent) (host : Host) (busy : w.hand = .answer event host) :
    Linked (w.reply event host) := by
  obtain ⟨reply, answer⟩ := linked.hand event host busy
  have count : w.up.passed.length = w.replies.length + 1 := by
    rw [linked.answered, busy]
    rfl
  refine { linked with down := linked.down, answered := ?_, replies := ?_, answers := ?_, hand := nofun }
  · simpa [Link.reply, Hand.count] using count
  · simpa [Link.reply, List.filter_append, reply] using linked.replies
  · intro k found same
    rw [Link.reply, List.getElem?_append] at same
    by_cases old : k < w.replies.length
    · rw [if_pos old] at same
      exact linked.answers k found same
    · rw [if_neg old, List.getElem?_singleton] at same
      split at same
      · obtain rfl : k = w.replies.length := by omega
        obtain rfl := Option.some.inj same
        have inside : w.replies.length < w.up.passed.length := by omega
        have last : w.up.passed.getLast? = some w.up.passed[w.replies.length] := by
          rw [List.getLast?_eq_getElem?, count, Nat.add_sub_cancel, List.getElem?_eq_getElem inside]
        refine ⟨_, List.getElem?_eq_getElem inside, ?_, answer _ last⟩
        exact (List.take_of_length_le (le_of_eq count)).symm
      · cases same

theorem linked_move (next : Link) (move : Move w next) : Linked next := by
  cases move with
  | event event rest idle front => exact linked_event w linked event rest front
  | closed idle gone empty => exact { linked with }
  | key key handled idle goes => exact linked_key w linked key handled idle goes
  | keyError e idle => exact { linked with }
  | stop idle =>
      refine { linked with pending := fun alive => ?_ }
      have whole := linked.pending alive
      rwa [idle] at whole
  | send cmd busy alive => exact linked_send w linked cmd .refreshing (by rw [busy]; rfl) alive
  | sendFails cmd busy gone => exact linked_unsent w linked .ready _ rfl gone
  | refresh busy alive => exact linked_send w linked .snapshot .ready (by rw [busy]; rfl) alive
  | refreshFails busy gone => exact linked_unsent w linked .ready _ rfl gone
  | write cmd rest front =>
      refine { linked with sent := linked.sent, pending := linked.pending, up := ?_ }
      rw [Pipe.push_entered, Pipe.pop_passed, linked.up]
  | writerEnds => exact { linked with sent := linked.sent, pending := nofun, up := linked.up }
  | upBreaks kept => exact { linked with up := linked.up }
  | perform cmd rest free front => exact linked_perform w linked cmd rest free front
  | build performed =>
      refine { linked with answered := ?_, hand := ?_ }
      · rw [linked.answered, performed]
        rfl
      · intro event host holds
        cases holds
        exact ⟨rfl, fun _ _ => rfl⟩
  | reply event host busy => exact linked_reply w linked event host busy
  | trace text =>
      refine { linked with down := linked.down, replies := ?_ }
      rw [Pipe.push_entered, List.filter_append]
      exact (List.append_nil _).trans linked.replies
  | others host => exact { linked with }
  | handlerEnds free => exact { linked with }
  | serverWrite event rest front =>
      refine { linked with down := ?_ }
      rw [Pipe.push_entered, Pipe.pop_passed, linked.down]
  | serverWriterEnds => exact { linked with }
  | downBreaks kept => exact { linked with }
  | read event rest front =>
      refine { linked with events := ?_ }
      rw [Pipe.push_entered, Pipe.pop_passed, linked.events]
  | readerEnds => exact { linked with }

end Linked

theorem run_linked (serverAddr : String) (host : Host) (w : Link) (run : Run serverAddr host w) : Linked w := by
  induction run with
  | start => exact linked_start serverAddr host
  | move w next _ move ih => exact linked_move w ih next move

theorem linked_applied (w : Link) (linked : Linked w) : w.events.passed <+: w.channel.entered := by
  have written := w.channel.linked_passed w.down linked.down
  have returned := w.events.passed_entered
  rw [linked.events] at returned
  exact returned.trans written

theorem linked_performed (w : Link) (linked : Linked w) : w.up.passed <+: typed w.lines :=
  (w.commands.linked_passed w.up linked.up).trans linked.sent

theorem client_replies_in_order (serverAddr : String) (host : Host) (w : Link) (run : Run serverAddr host w) :
    w.up.passed <+: typed w.lines ∧
      ∀ k event, (w.events.passed.filter isReply)[k]? = some event →
        ∃ cmd reply, (typed w.lines)[k]? = some cmd ∧ w.replies[k]? = some reply ∧ reply.event = event ∧
          reply.after = (typed w.lines).take (k + 1) ∧ reply.Answers cmd := by
  have linked := run_linked serverAddr host w run
  have performed := linked_performed w linked
  refine ⟨performed, fun k event found => ?_⟩
  have applied := (linked_applied w linked).filter isReply
  rw [linked.replies] at applied
  have replied : (w.replies.map Reply.event)[k]? = some event := by
    obtain ⟨inside, rfl⟩ := List.getElem?_eq_some_iff.mp found
    rw [List.getElem?_eq_getElem (inside.trans_le applied.length_le), applied.getElem inside]
  rw [List.getElem?_map, Option.map_eq_some_iff] at replied
  obtain ⟨reply, member, rfl⟩ := replied
  obtain ⟨cmd, here, after, answer⟩ := linked.answers k reply member
  have inside := (List.getElem?_eq_some_iff.mp here).1
  obtain ⟨later, same⟩ := performed
  refine ⟨cmd, reply, ?_, member, rfl, ?_, answer⟩
  · rw [← same, List.getElem?_append_left inside]
    exact here
  · rw [← same, List.take_append_of_le_length inside]
    exact after

def deniedHost : Host := ((Send.freshHost "A").perform (.deny "A" .write)).1

theorem refused_replied : ∃ w, Run "server" deniedHost w ∧ w.lines = ["d 0"] ∧ w.app.errors = ["local site lacks Write right"] ∧
    (w.events.passed.filter isReply)[2]? = some (.error "local site lacks Write right") ∧
    ∃ reply, w.replies[2]? = some reply ∧ reply.after = [.subscribe, .snapshot, .delete 0] := by
  have replied (w : Link) (run : Run "server" deniedHost w) (lines : w.lines = ["d 0"]) (event : ServerEvent)
      (found : (w.events.passed.filter isReply)[2]? = some event) :
      ∃ reply, w.replies[2]? = some reply ∧ reply.after = [.subscribe, .snapshot, .delete 0] := by
    obtain ⟨cmd, reply, _, found, _, after, _⟩ := (client_replies_in_order _ _ w run).2 2 event found
    rw [lines] at after
    exact ⟨reply, found, after.trans (by decide +kernel)⟩
  have run : Run "server" deniedHost (Link.start "server" deniedHost) := .start
  have run := run.move _ _ (.key _ (press (.char 'd')) _ rfl rfl)
  have run := run.move _ _ (.key _ (press (.char ' ')) _ rfl rfl)
  have run := run.move _ _ (.key _ (press (.char '0')) _ rfl rfl)
  have run := run.move _ _ (.key _ (press .enter) _ rfl rfl)
  have run := run.move _ _ (.send _ (.delete 0) (by decide +kernel) rfl)
  have run := run.move _ _ (.refresh _ rfl rfl)
  have run := run.move _ _ (.write _ .subscribe _ rfl)
  have run := run.move _ _ (.write _ .snapshot _ rfl)
  have run := run.move _ _ (.write _ (.delete 0) [.snapshot] (by decide +kernel))
  have run := run.move _ _ (.perform _ .subscribe _ rfl rfl)
  have run := run.move _ _ (.build _ rfl)
  have run := run.move _ _ (.reply _ _ _ rfl)
  have run := run.move _ _ (.perform _ .snapshot _ rfl rfl)
  have run := run.move _ _ (.build _ rfl)
  have run := run.move _ _ (.reply _ _ _ rfl)
  have run := run.move _ _ (.perform _ (.delete 0) _ rfl rfl)
  have run := run.move _ _ (.reply _ (.error "local site lacks Write right") _
    (perform_hand_refused _ (.delete 0) _ rfl _ (by decide +kernel)))
  have run := run.move _ _ (.serverWrite _ (.state deniedHost.buildSnapshot)
    [.state deniedHost.buildSnapshot, .error "local site lacks Write right"] (by decide +kernel))
  have run := run.move _ _ (.serverWrite _ _ _ rfl)
  have run := run.move _ _ (.serverWrite _ _ _ rfl)
  have run := run.move _ _ (.read _ _ _ rfl)
  have run := run.move _ _ (.read _ _ _ rfl)
  have run := run.move _ _ (.read _ _ _ rfl)
  have run := run.move _ _ (.event _ _ _ (by decide +kernel) rfl)
  have run := run.move _ _ (.event _ _ _ (by decide +kernel) rfl)
  have run := run.move _ _ (.event _ _ _ (by decide +kernel) rfl)
  exact ⟨_, run, by decide +kernel, by decide +kernel, by decide +kernel, replied _ run (by decide +kernel)
    (.error "local site lacks Write right") (by decide +kernel)⟩

structure Link.Alive (w : Link) : Prop where
  commands : w.commands.alive = true
  up : w.up.alive = true
  channel : w.channel.alive = true
  down : w.down.alive = true
  events : w.events.alive = true

def Hand.steps : Hand → Nat
  | .free => 0
  | .performed => 5
  | .answer _ _ => 4

def Link.load (w : Link) : Nat :=
  8 * w.phase.pending.length + 7 * w.commands.inside.length + 6 * w.up.inside.length + w.hand.steps +
    3 * w.channel.inside.length + 2 * w.down.inside.length + w.events.inside.length

theorem typed_last (lines : List String) : (typed lines).getLast? = some .snapshot := by
  rcases List.eq_nil_or_concat (lines.filterMap readCommand) with none_ | ⟨before, cmd, last⟩
  · rw [typed, none_]
    rfl
  · rw [typed, last, List.concat_eq_append, List.flatMap_append, ← List.append_assoc]
    exact List.getLast?_append_of_ne_nil _ (List.cons_ne_nil cmd _)

theorem states_replies (events : List ServerEvent) : events.filterMap stateOf = (events.filter isReply).filterMap stateOf := by
  rw [List.filterMap_filter]
  refine List.filterMap_congr fun event _ => ?_
  cases event <;> rfl

def Link.Fresh (w : Link) : Prop :=
  w.up.passed = typed w.lines ∧
    ∃ reply ∈ w.replies, reply.after = typed w.lines ∧ w.app.snapshot = some reply.host.buildSnapshot

theorem fresh_screen (w : Link) (fresh : w.Fresh) : ∃ reply ∈ w.replies, reply.after = typed w.lines ∧
    documentBody w.app = currentText reply.host.state ∧
      ∀ snap, w.app.snapshot = some snap → (bySite snap).sites = knownSites reply.host.state ∧
        ∀ site ∈ knownSites reply.host.state, ∀ right,
          (bySite snap).rights site (columnOf right) = eval reply.host.state site right := by
  obtain ⟨_, reply, member, after, shown⟩ := fresh
  refine ⟨reply, member, after, ?_, ?_⟩
  · rw [documentBody, shown]
    rfl
  · intro snap same
    obtain rfl := Option.some.inj (shown.symm.trans same)
    exact ⟨shown_sites reply.host, shown_right reply.host⟩

theorem linked_fresh (w : Link) (linked : Linked w) (alive : w.Alive) (quiet : w.load = 0) : w.Fresh := by
  have empty : w.phase.pending = [] ∧ w.commands.inside = [] ∧ w.up.inside = [] ∧ w.hand.steps = 0 ∧
      w.channel.inside = [] ∧ w.down.inside = [] ∧ w.events.inside = [] := by
    simp only [← List.length_eq_zero_iff]
    rw [Link.load] at quiet
    omega
  obtain ⟨pending, commands, up, steps, channel, down, events⟩ := empty
  have free : w.hand.count = 0 := by
    cases hand : w.hand with
    | free => rfl
    | performed => exact absurd (hand ▸ steps) nofun
    | answer event host => exact absurd (hand ▸ steps) nofun
  have sent := linked.pending alive.commands
  rw [pending, List.append_nil] at sent
  have performed : w.up.passed = typed w.lines := by
    rw [w.up.drained alive.up up, linked.up, w.commands.drained alive.commands commands, sent]
  have applied : w.events.passed = w.channel.entered := by
    rw [w.events.drained alive.events events, linked.events, w.down.drained alive.down down, linked.down,
      w.channel.drained alive.channel channel]
  have shown := linked.shown
  rw [applied, states_replies, linked.replies] at shown
  have count := linked.answered
  rw [free, Nat.add_zero] at count
  obtain ⟨before, reply, last⟩ := (List.eq_nil_or_concat w.replies).resolve_left fun none_ => by
    rw [performed, none_] at count
    cases count
  rw [List.concat_eq_append] at last
  have place : w.replies[before.length]? = some reply := by simp [last]
  obtain ⟨cmd, here, after, answer⟩ := linked.answers _ reply place
  have size : w.up.passed.length = before.length + 1 := by simp [count, last]
  have final : cmd = .snapshot := by
    have typed_ := typed_last w.lines
    rw [← performed, List.getLast?_eq_getElem?, size, Nat.add_sub_cancel, here] at typed_
    exact Option.some.inj typed_
  rw [← size, List.take_length, performed] at after
  refine ⟨performed, reply, by simp [last], after, ?_⟩
  rw [shown, last, List.map_append, List.filterMap_append]
  rw [Reply.Answers, final] at answer
  cases event : reply.event with
  | state s =>
      rw [event] at answer
      simp [stateOf, event, answer]
  | error e =>
      rw [event] at answer
      exact absurd (congrArg Prod.snd answer) (Option.some_ne_none e).symm
  | trace text =>
      rw [event] at answer
      exact answer.elim

-- What fits in the channels and the streams, with what the tasks between them have
-- in hand. All are counted in messages, where TCP bounds a stream in bytes.
structure Capacity where
  commands : Nat
  up : Nat
  channel : Nat
  down : Nat
  events : Nat

structure Capacity.Roomy (cap : Capacity) : Prop where
  commands : 0 < cap.commands
  up : 0 < cap.up
  channel : 0 < cap.channel
  down : 0 < cap.down
  events : 1 < cap.events

structure Link.Within (cap : Capacity) (w : Link) : Prop where
  commands : w.commands.inside.length ≤ cap.commands
  up : w.up.inside.length ≤ cap.up
  channel : w.channel.inside.length ≤ cap.channel
  down : w.down.inside.length ≤ cap.down
  events : w.events.inside.length ≤ cap.events

def Capacity.places (cap : Capacity) : Nat := cap.commands + cap.up + 1 + cap.channel + cap.down + cap.events

def Link.taken (w : Link) : Nat :=
  w.commands.inside.length + w.up.inside.length + w.hand.count + w.channel.inside.length + w.down.inside.length +
    w.events.inside.length

def Link.demand (w : Link) : Nat := w.taken + w.phase.pending.length

def Link.Fits (cap : Capacity) (w : Link) : Prop := w.demand ≤ cap.places

def Flow (cap : Capacity) (w next : Link) : Prop := Move w next ∧ next.Within cap ∧ next.Alive

theorem hand_count_le (hand : Hand) : hand.count ≤ 1 := by
  cases hand <;> simp [Hand.count]

theorem performed_taken (w : Link) (cmd : ClientCommand) (rest : List ClientCommand) (front : w.up.inside = cmd :: rest)
    (free : w.hand = .free) :
    (w.perform cmd rest front).taken = w.taken ∧ (w.perform cmd rest front).load < w.load := by
  have less := w.up.pop_length cmd rest front
  simp only [Link.taken, Link.load, Link.perform, free]
  cases (w.host.perform cmd).2 <;> simp only [Hand.count, Hand.steps] <;> omega

theorem ready_fits (cap : Capacity) (w : Link) (within : w.Within cap) (ready : w.phase = .ready) : w.Fits cap := by
  have hand := hand_count_le w.hand
  have commands := within.commands
  have up := within.up
  have channel := within.channel
  have down := within.down
  have events := within.events
  simp only [Link.Fits, Link.demand, Link.taken, ready, Phase.pending, List.length_nil, Capacity.places]
  omega

section Flow

variable (cap : Capacity) (w : Link) (alive : w.Alive)

include alive

theorem flow_demand (next : Link) (flow : Flow cap w next) :
    next.demand = w.demand ∨ (w.phase = .ready ∧ next.demand + 1 = w.demand) ∨
      (∃ text, next = { w with channel := w.channel.push (.trace text) } ∧ next.demand = w.demand + 1) ∨
        ∃ key handled, w.phase = .ready ∧ handleKey w.app key = some handled ∧ next = w.key key handled := by
  obtain ⟨move, _, nextAlive⟩ := flow
  cases move with
  | event event rest idle front =>
      have less := w.events.pop_length event rest front
      refine Or.inr (Or.inl ⟨idle, ?_⟩)
      simp only [Link.demand, Link.taken]
      omega
  | closed => exact Or.inl rfl
  | key key handled idle goes => exact Or.inr (Or.inr (Or.inr ⟨key, handled, idle, goes, rfl⟩))
  | keyError => exact Or.inl rfl
  | stop idle => exact Or.inl (by simp only [Link.demand, Link.taken, idle, Phase.pending])
  | send cmd busy =>
      have more := w.commands.push_length cmd alive.commands
      simp only [Link.demand, Link.taken, busy, Phase.pending, List.length_cons, List.length_nil]
      omega
  | sendFails _ _ gone => exact absurd (gone.symm.trans alive.commands) Bool.false_ne_true
  | refresh busy =>
      have more := w.commands.push_length .snapshot alive.commands
      simp only [Link.demand, Link.taken, busy, Phase.pending, List.length_cons, List.length_nil]
      omega
  | refreshFails _ gone => exact absurd (gone.symm.trans alive.commands) Bool.false_ne_true
  | write cmd rest front =>
      have less := w.commands.pop_length cmd rest front
      have more := w.up.push_length cmd alive.up
      simp only [Link.demand, Link.taken]
      omega
  | writerEnds => exact absurd nextAlive.commands Bool.false_ne_true
  | upBreaks => exact absurd nextAlive.up Bool.false_ne_true
  | perform cmd rest free front =>
      refine Or.inl ?_
      rw [Link.demand, (performed_taken w cmd rest front free).1]
      rfl
  | build performed => exact Or.inl (by simp only [Link.demand, Link.taken, performed, Hand.count])
  | reply event host busy =>
      have more := w.channel.push_length event alive.channel
      simp only [Link.demand, Link.taken, Link.reply, busy, Hand.count]
      omega
  | trace text =>
      have more := w.channel.push_length (.trace text) alive.channel
      refine Or.inr (Or.inr (Or.inl ⟨text, rfl, ?_⟩))
      simp only [Link.demand, Link.taken]
      omega
  | others => exact Or.inl rfl
  | handlerEnds => exact absurd nextAlive.up Bool.false_ne_true
  | serverWrite event rest front =>
      have less := w.channel.pop_length event rest front
      have more := w.down.push_length event alive.down
      simp only [Link.demand, Link.taken]
      omega
  | serverWriterEnds => exact absurd nextAlive.channel Bool.false_ne_true
  | downBreaks => exact absurd nextAlive.down Bool.false_ne_true
  | read event rest front =>
      have less := w.down.pop_length event rest front
      have more := w.events.push_length event alive.events
      simp only [Link.demand, Link.taken]
      omega
  | readerEnds => exact absurd nextAlive.down Bool.false_ne_true

theorem jam_stays (within : w.Within cap) (next : Link) (flow : Flow cap w next) (jammed : ¬ w.Fits cap) : ¬ next.Fits cap := by
  have sending : w.phase ≠ .ready := fun ready => jammed (ready_fits cap w within ready)
  have demand : w.demand ≤ next.demand := by
    rcases flow_demand cap w alive next flow with same | ⟨idle, _⟩ | ⟨text, _, more⟩ | ⟨_, _, idle, _⟩
    · exact same.ge
    · exact absurd idle sending
    · exact more ▸ Nat.le_succ _
    · exact absurd idle sending
  exact fun fits => jammed (demand.trans fits)

end Flow

structure Onward (cap : Capacity) (w next : Link) : Prop where
  flow : Flow cap w next
  running : next.phase ≠ .finished
  lines : next.lines = w.lines
  load : next.load < w.load
  fits : next.Fits cap

section Onward

variable (cap : Capacity) (w : Link) (within : w.Within cap) (alive : w.Alive) (running : w.phase ≠ .finished)
variable (fits : w.Fits cap)

include within alive running fits

theorem onward_write (cmd : ClientCommand) (rest : List ClientCommand) (front : w.commands.inside = cmd :: rest)
    (room : w.up.inside.length < cap.up) : ∃ next, Onward cap w next := by
  have less := w.commands.pop_length cmd rest front
  have more := w.up.push_length cmd alive.up
  have bound := within.commands
  refine ⟨_, ⟨.write w cmd rest front, ?_, { alive with }⟩, running, rfl, ?_, ?_⟩
  · exact { within with commands := by dsimp only; omega, up := by dsimp only; omega }
  · simp only [Link.load]
    omega
  · simp only [Link.Fits, Link.demand, Link.taken] at fits ⊢
    omega

theorem onward_perform (cmd : ClientCommand) (rest : List ClientCommand) (free : w.hand = .free)
    (front : w.up.inside = cmd :: rest) : ∃ next, Onward cap w next := by
  have less := w.up.pop_length cmd rest front
  have bound := within.up
  obtain ⟨taken, load⟩ := performed_taken w cmd rest front free
  refine ⟨_, ⟨.perform w cmd rest free front, ?_, { alive with }⟩, running, rfl, load, ?_⟩
  · exact { within with up := by simp only [Link.perform]; omega }
  · rw [Link.Fits, Link.demand, taken]
    exact fits

theorem onward_build (performed : w.hand = .performed) : ∃ next, Onward cap w next := by
  refine ⟨_, ⟨.build w performed, { within with }, { alive with }⟩, running, rfl, ?_, ?_⟩
  · simp only [Link.load, performed, Hand.steps]
    omega
  · rw [Link.Fits, Link.demand, Link.taken, performed] at fits
    exact fits

theorem onward_reply (event : ServerEvent) (host : Host) (busy : w.hand = .answer event host)
    (room : w.channel.inside.length < cap.channel) : ∃ next, Onward cap w next := by
  have more := w.channel.push_length event alive.channel
  refine ⟨_, ⟨.reply w event host busy, ?_, { alive with }⟩, running, rfl, ?_, ?_⟩
  · exact { within with channel := by simp only [Link.reply]; omega }
  · simp only [Link.load, Link.reply, busy, Hand.steps]
    omega
  · simp only [Link.Fits, Link.demand, Link.taken, Link.reply, busy, Hand.count] at fits ⊢
    omega

theorem onward_server_write (event : ServerEvent) (rest : List ServerEvent) (front : w.channel.inside = event :: rest)
    (room : w.down.inside.length < cap.down) : ∃ next, Onward cap w next := by
  have less := w.channel.pop_length event rest front
  have more := w.down.push_length event alive.down
  have bound := within.channel
  refine ⟨_, ⟨.serverWrite w event rest front, ?_, { alive with }⟩, running, rfl, ?_, ?_⟩
  · exact { within with channel := by dsimp only; omega, down := by dsimp only; omega }
  · simp only [Link.load]
    omega
  · simp only [Link.Fits, Link.demand, Link.taken] at fits ⊢
    omega

theorem onward_read (event : ServerEvent) (rest : List ServerEvent) (front : w.down.inside = event :: rest)
    (room : w.events.inside.length < cap.events) : ∃ next, Onward cap w next := by
  have less := w.down.pop_length event rest front
  have more := w.events.push_length event alive.events
  have bound := within.down
  refine ⟨_, ⟨.read w event rest front, ?_, { alive with }⟩, running, rfl, ?_, ?_⟩
  · exact { within with down := by dsimp only; omega, events := by dsimp only; omega }
  · simp only [Link.load]
    omega
  · simp only [Link.Fits, Link.demand, Link.taken] at fits ⊢
    omega

theorem onward_event (idle : w.phase = .ready) (event : ServerEvent) (rest : List ServerEvent)
    (front : w.events.inside = event :: rest) : ∃ next, Onward cap w next := by
  have less := w.events.pop_length event rest front
  have bound := within.events
  refine ⟨_, ⟨.event w event rest idle front, ?_, { alive with }⟩, running, rfl, ?_, ?_⟩
  · exact { within with events := by dsimp only; omega }
  · simp only [Link.load]
    omega
  · simp only [Link.Fits, Link.demand, Link.taken] at fits ⊢
    omega

omit running in
theorem onward_send (cmd : ClientCommand) (phase : Phase) (split : w.phase.pending = cmd :: phase.pending)
    (move : Move w { w with phase := phase, commands := w.commands.push cmd }) (runs : phase ≠ .finished)
    (room : w.commands.inside.length < cap.commands) : ∃ next, Onward cap w next := by
  have more := w.commands.push_length cmd alive.commands
  refine ⟨_, ⟨move, ?_, { alive with }⟩, runs, rfl, ?_, ?_⟩
  · exact { within with commands := by dsimp only; omega }
  · simp only [Link.load, split, List.length_cons]
    omega
  · simp only [Link.Fits, Link.demand, Link.taken, split, List.length_cons] at fits ⊢
    omega

variable (roomy : cap.Roomy)

include roomy

theorem ready_onward (idle : w.phase = .ready) (busy : w.load ≠ 0) : ∃ next, Onward cap w next := by
  cases events : w.events.inside with
  | cons event rest => exact onward_event cap w within alive running fits idle event rest events
  | nil =>
  cases down : w.down.inside with
  | cons event rest =>
      exact onward_read cap w within alive running fits event rest down (by rw [events]; exact Nat.lt_of_succ_lt roomy.events)
  | nil =>
  cases channel : w.channel.inside with
  | cons event rest =>
      exact onward_server_write cap w within alive running fits event rest channel (by rw [down]; exact roomy.down)
  | nil =>
  cases hand : w.hand with
  | performed => exact onward_build cap w within alive running fits hand
  | answer event host =>
      exact onward_reply cap w within alive running fits event host hand (by rw [channel]; exact roomy.channel)
  | free =>
  cases up : w.up.inside with
  | cons cmd rest => exact onward_perform cap w within alive running fits cmd rest hand up
  | nil =>
  cases commands : w.commands.inside with
  | cons cmd rest => exact onward_write cap w within alive running fits cmd rest commands (by rw [up]; exact roomy.up)
  | nil => exact absurd (by simp [Link.load, idle, Phase.pending, events, down, channel, hand, Hand.steps, up, commands]) busy

theorem full_onward (waits : 0 < w.phase.pending.length) (full : cap.commands ≤ w.commands.inside.length) :
    ∃ next, Onward cap w next := by
  have front (T : Type) (rows : List T) (size : Nat) (large : size ≤ rows.length) (positive : 0 < size) :
      ∃ row rest, rows = row :: rest := List.exists_cons_of_length_pos (Nat.lt_of_lt_of_le positive large)
  by_cases upRoom : w.up.inside.length < cap.up
  · obtain ⟨cmd, rest, commands⟩ := front _ _ _ full roomy.commands
    exact onward_write cap w within alive running fits cmd rest commands upRoom
  have upFull := Nat.le_of_not_lt upRoom
  cases hand : w.hand with
  | free =>
      obtain ⟨cmd, rest, up⟩ := front _ _ _ upFull roomy.up
      exact onward_perform cap w within alive running fits cmd rest hand up
  | performed => exact onward_build cap w within alive running fits hand
  | answer event host =>
  by_cases channelRoom : w.channel.inside.length < cap.channel
  · exact onward_reply cap w within alive running fits event host hand channelRoom
  have channelFull := Nat.le_of_not_lt channelRoom
  by_cases downRoom : w.down.inside.length < cap.down
  · obtain ⟨event, rest, channel⟩ := front _ _ _ channelFull roomy.channel
    exact onward_server_write cap w within alive running fits event rest channel downRoom
  have downFull := Nat.le_of_not_lt downRoom
  by_cases eventsRoom : w.events.inside.length < cap.events
  · obtain ⟨event, rest, down⟩ := front _ _ _ downFull roomy.down
    exact onward_read cap w within alive running fits event rest down eventsRoom
  · exfalso
    simp only [Link.Fits, Link.demand, Link.taken, hand, Hand.count, Capacity.places] at fits
    omega

theorem link_onward (busy : w.load ≠ 0) : ∃ next, Onward cap w next := by
  cases phase : w.phase with
  | finished => exact absurd phase running
  | ready => exact ready_onward cap w within alive running fits roomy phase busy
  | sending cmd =>
      by_cases room : w.commands.inside.length < cap.commands
      · exact onward_send cap w within alive fits cmd .refreshing (by rw [phase]; rfl)
          (.send w cmd phase alive.commands) nofun room
      · exact full_onward cap w within alive running fits roomy (by rw [phase]; exact Nat.succ_pos _) (Nat.le_of_not_lt room)
  | refreshing =>
      by_cases room : w.commands.inside.length < cap.commands
      · exact onward_send cap w within alive fits .snapshot .ready (by rw [phase]; rfl)
          (.refresh w phase alive.commands) nofun room
      · exact full_onward cap w within alive running fits roomy (by rw [phase]; exact Nat.succ_pos _) (Nat.le_of_not_lt room)

end Onward

theorem flow_run (cap : Capacity) (serverAddr : String) (host : Host) (w next : Link) (run : Run serverAddr host w)
    (flows : Relation.ReflTransGen (Flow cap) w next) : Run serverAddr host next := by
  induction flows with
  | refl => exact run
  | tail _ flow ih => exact .move _ _ ih flow.1

theorem jam_lasts (cap : Capacity) (w next : Link) (within : w.Within cap) (alive : w.Alive)
    (flows : Relation.ReflTransGen (Flow cap) w next) (jammed : ¬ w.Fits cap) : ¬ next.Fits cap := by
  induction flows using Relation.ReflTransGen.head_induction_on with
  | refl => exact jammed
  | head flow _ ih => exact ih flow.2.1 flow.2.2 (jam_stays cap _ alive within _ flow jammed)

theorem rest_fits (cap : Capacity) (w : Link) (rest : w.load = 0) : w.Fits cap := by
  have hand : w.hand.count = 0 := by
    cases hand : w.hand <;> simp [Link.load, hand, Hand.steps, Hand.count] at rest ⊢
  simp only [Link.load] at rest
  simp only [Link.Fits, Link.demand, Link.taken]
  omega

theorem link_settles (cap : Capacity) (roomy : cap.Roomy) (w : Link) (within : w.Within cap) (alive : w.Alive)
    (running : w.phase ≠ .finished) (fits : w.Fits cap) :
    ∃ next, Relation.ReflTransGen (Flow cap) w next ∧ next.lines = w.lines ∧ next.load = 0 ∧ next.Alive := by
  induction size : w.load using Nat.strong_induction_on generalizing w with
  | _ load ih =>
      by_cases rest : w.load = 0
      · exact ⟨w, .refl, rfl, rest, alive⟩
      · obtain ⟨next, onward⟩ := link_onward cap w within alive running fits roomy rest
        obtain ⟨last, flows, lines, quiet, lastAlive⟩ := ih next.load (size ▸ onward.load) next onward.flow.2.1
          onward.flow.2.2 onward.running onward.fits rfl
        exact ⟨last, .head onward.flow flows, lines.trans onward.lines, quiet, lastAlive⟩

theorem key_fits (cap : Capacity) (roomy : cap.Roomy) (w : Link) (within : w.Within cap) (key : KeyEvent) (handled : Handled)
    (empty : w.events.inside = []) : (w.key key handled).Fits cap := by
  have pending : (w.key key handled).phase.pending.length ≤ 2 := by
    cases (w.key key handled).phase <;> simp [Phase.pending]
  have hand := hand_count_le w.hand
  have commands := within.commands
  have up := within.up
  have channel := within.channel
  have down := within.down
  have events := roomy.events
  have taken : (w.key key handled).taken = w.taken := rfl
  rw [Link.Fits, Link.demand, taken, Link.taken, empty, List.length_nil, Capacity.places]
  omega

theorem overfilled (cap : Capacity) (roomy : cap.Roomy) (w : Link) (within : w.Within cap) (alive : w.Alive) (next : Link)
    (flow : Flow cap w next) (fits : w.Fits cap) (jammed : ¬ next.Fits cap) :
    (w.phase ≠ .ready ∧ ∃ text, next = { w with channel := w.channel.push (.trace text) }) ∨
      ∃ key handled, handleKey w.app key = some handled ∧ w.events.inside ≠ [] ∧ next = w.key key handled := by
  rcases flow_demand cap w alive next flow with same | ⟨_, less⟩ | ⟨text, rfl, _⟩ | ⟨key, handled, _, goes, rfl⟩
  · exact absurd (same.trans_le fits) jammed
  · exact absurd ((Nat.le_of_lt (Nat.lt_of_succ_le less.le)).trans fits) jammed
  · exact Or.inl ⟨fun ready => jammed (ready_fits cap _ flow.2.1 ready), text, rfl⟩
  · exact Or.inr ⟨key, handled, goes, fun empty => jammed (key_fits cap roomy w within key handled empty), rfl⟩

def tight : Capacity := ⟨1, 1, 1, 1, 2⟩

theorem tight_roomy : tight.Roomy := by constructor <;> decide

end Accure.Terminal
