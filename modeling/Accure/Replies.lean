import Accure.Messages
import Accure.Send

set_option autoImplicit false

namespace Accure.Send

open Framing

def isState : ServerEvent → Bool
  | .state _ => true
  | _ => false

def Boundary (codec : Bincode ServerEvent) (w : Link) (offset : Nat) : Prop :=
  ∃ count ≤ w.written.length, offset = (stream (frameOf codec) (w.written.take count)).length

instance (codec : Bincode ServerEvent) (w : Link) (offset : Nat) : Decidable (Boundary codec w offset) :=
  inferInstanceAs (Decidable (∃ count, count ≤ w.written.length ∧
    offset = (stream (frameOf codec) (w.written.take count)).length))

-- What accure-send is to keep: read_frame begins between two frames, and a STATE
-- line shows the snapshot built for the snapshot command it is printed for,
-- after all the commands up to it and no others.
structure Kept (codec : Bincode ServerEvent) (w : Link) : Prop where
  starts : ∀ offset ∈ w.starts, Boundary codec w offset
  lines : ∀ line ∈ w.lines, w.sent[line.1]? = some .snapshot ∧
    ∃ answer ∈ w.answers, answer.command = line.1 ∧ answer.snapshot = line.2 ∧ answer.after = w.sent.take (line.1 + 1)

def Link.unread (w : Link) : List ServerEvent := w.written.drop w.returned ++ w.channel

def Link.silent (w : Link) : Prop := w.phase = .finished ∨ (w.phase = .ready ∧ nextCommand w.cmds = none)

def InTime (w : Link) : Prop :=
  nextCommand w.cmds = none ∨ (w.phase.taken = [] ∧ ∀ event ∈ w.unread, isState event = false)

def Awaited (w : Link) : Prop :=
  w.silent ∨ w.writer = false ∨ (w.phase.waits = true ∧ w.performed.length = w.sent.length)

-- What is on the wire is the rest of the frames written, and the present call
-- stands inside the first of them. Only a writer that ended leaves a cut frame.
structure Aligned (codec : Bincode ServerEvent) (w : Link) : Prop where
  returned : w.returned ≤ w.written.length
  accepted : ∀ event ∈ w.written, accepts codec event = true
  consumed : w.consumed = (stream (frameOf codec) (w.written.take w.returned)).length + w.phase.taken.length
  waiting : call codec w.phase.taken = .waiting
  wire : ∃ cut, w.phase.taken ++ w.wire = stream (frameOf codec) (w.written.drop w.returned) ++ cut ∧
    (cut = [] ∨ (w.writer = false ∧ ∃ event, accepts codec event = true ∧ cut <+: frameOf codec event ∧
      cut ≠ frameOf codec event))

structure Expected (w : Link) : Prop where
  current : ∀ print taken, w.phase = .draining print taken → ∃ before cmd, w.sent = before ++ [cmd] ∧
    print = decide (cmd = .snapshot)
  sent : w.sent = w.performed ++ w.inbox
  answering : w.answering = true → w.performed ≠ []
  states : ∀ event ∈ w.unread, isState event = true → w.phase.waits = true ∧ w.inbox = [] ∧ w.answering = false ∧
    ∃ answer ∈ w.answers, event = .state answer.snapshot ∧ answer.command + 1 = w.sent.length ∧ answer.after = w.sent
  once : (w.unread.filter isState).length ≤ 1

section Boundaries

variable (codec : Bincode ServerEvent) (w next : Link)

theorem boundary_grows (more : List ServerEvent) (grown : next.written = w.written ++ more) (offset : Nat)
    (boundary : Boundary codec w offset) : Boundary codec next offset := by
  obtain ⟨count, bound, rfl⟩ := boundary
  refine ⟨count, ?_, ?_⟩
  · rw [grown, List.length_append]
    omega
  · rw [grown, List.take_append_of_le_length bound]

theorem kept_grows (kept : Kept codec w) (starts : next.starts = w.starts) (lines : next.lines = w.lines)
    (written : ∃ more, next.written = w.written ++ more) (sent : ∃ more, next.sent = w.sent ++ more)
    (answers : ∃ more, next.answers = w.answers ++ more) : Kept codec next := by
  obtain ⟨moreWritten, written⟩ := written
  obtain ⟨moreSent, sent⟩ := sent
  obtain ⟨moreAnswers, answers⟩ := answers
  constructor
  · intro offset member
    rw [starts] at member
    exact boundary_grows codec w next moreWritten written offset (kept.starts offset member)
  · intro line member
    rw [lines] at member
    obtain ⟨command, answer, known, number, snapshot, after⟩ := kept.lines line member
    obtain ⟨inside, _⟩ := List.getElem?_eq_some_iff.mp command
    refine ⟨by rw [sent, List.getElem?_append_left inside, command], answer, ?_, number, snapshot, ?_⟩
    · rw [answers]
      exact List.mem_append_left _ known
    · rw [after, sent, List.take_append_of_le_length inside]

theorem aligned_boundary (aligned : Aligned codec w) (between : w.phase.taken = []) : Boundary codec w w.consumed := by
  refine ⟨w.returned, aligned.returned, ?_⟩
  rw [aligned.consumed, between, List.length_nil, Nat.add_zero]

end Boundaries

section Reading

variable (codec : Bincode ServerEvent) (inverts : codec.Inverts) (w : Link) (aligned : Aligned codec w)
variable (print : Bool) (taken got rest : List UInt8) (busy : w.phase = .draining print taken)
variable (limit : got.length ≤ wanted taken) (split : w.wire = got ++ rest)

include inverts aligned busy limit split

-- A read either leaves the call waiting inside a frame or completes the first
-- frame that was not read.
theorem read_outcome : (call codec (taken ++ got) = .waiting) ∨
    ∃ event more, w.written.drop w.returned = event :: more ∧ taken ++ got = frameOf codec event ∧
      call codec (taken ++ got) = .returned (.ok event) := by
  obtain ⟨cut, wire, source⟩ := aligned.wire
  have waiting := aligned.waiting
  rw [busy] at wire waiting
  simp only [Phase.taken, split, ← List.append_assoc] at wire waiting
  cases remaining : w.written.drop w.returned with
  | nil =>
      rw [remaining] at wire
      have piece : taken ++ got <+: cut := ⟨rest, by simpa [stream] using wire⟩
      rcases source with rfl | ⟨_, event, accepted, inside, proper⟩
      · rw [List.eq_nil_of_prefix_nil piece]
        exact Or.inl rfl
      · refine Or.inl (call_inside codec event accepted _ (piece.trans inside) ?_).1
        intro whole
        exact proper (inside.eq_of_length (le_antisymm inside.length_le (whole ▸ piece.length_le)))
  | cons event more =>
      have accepted := aligned.accepted event (List.mem_of_mem_drop (remaining ▸ List.mem_cons_self))
      rw [remaining] at wire
      have frames : (taken ++ got) ++ rest = frameOf codec event ++ (stream (frameOf codec) more ++ cut) := by
        rw [wire, stream, List.map_cons, List.flatten_cons, List.append_assoc, stream]
      obtain ⟨inside, proper⟩ := waiting_inside codec event accepted taken _ (got ++ rest) waiting
        (by rw [← List.append_assoc, frames])
      have bound := (call_inside codec event accepted taken inside proper).2
      have piece : taken ++ got <+: frameOf codec event :=
        List.prefix_of_prefix_length_le ⟨rest, frames⟩ (List.prefix_append _ _) (by rw [List.length_append]; omega)
      by_cases whole : taken ++ got = frameOf codec event
      · exact Or.inr ⟨event, more, rfl, whole, whole ▸ call_whole codec event accepted inverts⟩
      · exact Or.inl (call_inside codec event accepted _ piece whole).1

omit inverts limit in
theorem waiting_aligned (waits : call codec (taken ++ got) = .waiting) :
    Aligned codec { w with wire := rest, consumed := w.consumed + got.length, phase := .draining print (taken ++ got) } := by
  refine ⟨aligned.returned, aligned.accepted, ?_, waits, ?_⟩
  · have consumed := aligned.consumed
    rw [busy] at consumed
    simp only [Phase.taken, List.length_append] at consumed ⊢
    omega
  · obtain ⟨cut, wire, source⟩ := aligned.wire
    rw [busy, split] at wire
    exact ⟨cut, by simpa [Phase.taken] using wire, source⟩

omit inverts limit in
theorem returned_aligned (event : ServerEvent) (more : List ServerEvent)
    (remaining : w.written.drop w.returned = event :: more) (whole : taken ++ got = frameOf codec event) (phase : Phase)
    (between : phase.taken = []) (lines : List (Nat × Snapshot)) (starts : List Nat) :
    Aligned codec { w with
      wire := rest
      consumed := w.consumed + got.length
      phase := phase
      lines := lines
      starts := starts
      returned := w.returned + 1 } := by
  have inside : w.returned < w.written.length := by
    have lengths := congrArg List.length remaining
    rw [List.length_drop, List.length_cons] at lengths
    omega
  have this_ : w.written[w.returned] = event := by
    have first := congrArg (fun events => events[0]?) remaining
    simpa [List.getElem?_eq_getElem inside] using first
  refine ⟨inside, aligned.accepted, ?_, ?_, ?_⟩
  · have consumed := aligned.consumed
    have size := congrArg List.length whole
    rw [busy] at consumed
    simp only [Phase.taken, List.length_append] at consumed size
    simp only [between, List.length_nil, List.take_succ_eq_append_getElem inside, this_, stream, List.map_append,
      List.flatten_append, List.length_append, List.map_cons, List.map_nil, List.flatten_cons, List.flatten_nil]
      at consumed ⊢
    omega
  · rw [between]
    rfl
  · obtain ⟨cut, wire, source⟩ := aligned.wire
    have later : w.written.drop (w.returned + 1) = more := by
      rw [← List.tail_drop, remaining, List.tail_cons]
    rw [busy, split, remaining] at wire
    simp only [Phase.taken, ← List.append_assoc, whole, stream, List.map_cons, List.flatten_cons] at wire
    refine ⟨cut, ?_, source⟩
    rw [between, later, List.nil_append]
    rw [List.append_assoc] at wire
    exact List.append_cancel_left wire

end Reading

section States

variable (w next : Link)

theorem quiet_expected (current : ∀ print taken, w.phase = .draining print taken →
      ∃ before cmd, w.sent = before ++ [cmd] ∧ print = decide (cmd = .snapshot))
    (sent : w.sent = w.performed ++ w.inbox) (answering : w.answering = true → w.performed ≠ [])
    (quiet : ∀ event ∈ w.unread, isState event = false) : Expected w := by
  refine ⟨current, sent, answering, ?_, ?_⟩
  · intro event member state
    rw [quiet event member] at state
    cases state
  · have nothing : w.unread.filter isState = [] :=
      List.filter_eq_nil_iff.mpr (fun event member => by simp [quiet event member])
    rw [nothing]
    exact Nat.zero_le 1

theorem fewer_expected (expected : Expected w)
    (current : ∀ print taken, next.phase = .draining print taken → ∃ earlier, w.phase = .draining print earlier)
    (waits : next.phase.waits = w.phase.waits) (sent : next.sent = w.sent) (performed : next.performed = w.performed)
    (inbox : next.inbox = w.inbox) (answering : next.answering = w.answering) (answers : next.answers = w.answers)
    (fewer : (next.unread.filter isState).Sublist (w.unread.filter isState)) : Expected next := by
  refine ⟨?_, by rw [sent, performed, inbox, expected.sent], ?_, ?_, fewer.length_le.trans expected.once⟩
  · intro print taken busy
    obtain ⟨earlier, before⟩ := current print taken busy
    exact sent ▸ expected.current print earlier before
  · rw [answering, performed]
    exact expected.answering
  · intro event member state
    have before := (List.mem_filter.mp (fewer.subset (List.mem_filter.mpr ⟨member, state⟩))).1
    rw [waits, inbox, answering, answers, sent]
    exact expected.states event before state

theorem waiting_quiet (expected : Expected w) (busy : w.inbox ≠ [] ∨ w.answering = true ∨ w.phase.waits = false) :
    ∀ event ∈ w.unread, isState event = false := by
  intro event member
  by_contra state
  obtain ⟨waits, inbox, answering, _⟩ := expected.states event member (by simpa using state)
  rcases busy with full | answers | rests
  · exact full inbox
  · rw [answering] at answers
    cases answers
  · rw [waits] at rests
    cases rests

theorem push_unread (event : ServerEvent) :
    (w.push event).unread = w.unread ∨ (w.push event).unread = w.unread ++ [event] := by
  rw [Link.push]
  by_cases alive : w.writer = true
  · rw [if_pos alive]
    exact Or.inr (List.append_assoc _ _ _).symm
  · rw [if_neg alive]
    exact Or.inl rfl

theorem push_eq (event : ServerEvent) : ∃ channel, w.push event = { w with channel := channel } := by
  rw [Link.push]
  by_cases alive : w.writer = true
  · exact ⟨_, if_pos alive⟩
  · exact ⟨w.channel, if_neg alive⟩

end States

section Next

variable (codec : Bincode ServerEvent) (w : Link) (event : ServerEvent) (more : List ServerEvent)
variable (remaining : w.written.drop w.returned = event :: more)

include remaining

theorem next_unread : w.unread = event :: (more ++ w.channel) := by rw [Link.unread, remaining, List.cons_append]

theorem later_unread : w.written.drop (w.returned + 1) = more := by rw [← List.tail_drop, remaining, List.tail_cons]

theorem state_read (expected : Expected w) (state : isState event = true) :
    ∀ later ∈ more ++ w.channel, isState later = false := by
  have once := expected.once
  rw [next_unread w event more remaining, List.filter_cons_of_pos state, List.length_cons] at once
  have none_ : (more ++ w.channel).filter isState = [] := List.eq_nil_of_length_eq_zero (by omega)
  intro later member
  simpa using List.filter_eq_nil_iff.mp none_ later member

end Next

def Tracked (codec : Bincode ServerEvent) (w : Link) : Prop :=
  Kept codec w ∧ (w.silent ∨ (Aligned codec w ∧ Expected w))

section Moves

variable (codec : Bincode ServerEvent) (w : Link)

theorem tracked_send (kept : Kept codec w) (aligned : Aligned codec w) (expected : Expected w) (cmd : ClientCommand)
    (rest : List String) (idle : w.phase = .ready) : Tracked codec (w.send cmd rest) := by
  have between : w.phase.taken = [] := by rw [idle]; rfl
  have quiet := waiting_quiet w expected (Or.inr (Or.inr (by rw [idle]; rfl)))
  have grown : Kept codec { w with sent := w.sent ++ [cmd] } :=
    kept_grows codec w _ kept rfl rfl ⟨[], (List.append_nil _).symm⟩ ⟨[cmd], rfl⟩ ⟨[], (List.append_nil _).symm⟩
  refine ⟨⟨?_, grown.lines⟩, Or.inr ⟨⟨aligned.returned, aligned.accepted, ?_, rfl, ?_⟩, ?_⟩⟩
  · intro offset member
    rcases List.mem_append.mp member with old | here
    · exact kept.starts offset old
    · exact List.mem_singleton.mp here ▸ aligned_boundary codec w aligned between
  · have consumed := aligned.consumed
    rwa [between] at consumed
  · have wire := aligned.wire
    rwa [between] at wire
  · refine quiet_expected _ ?_ ?_ expected.answering quiet
    · intro print taken busy
      have same := Phase.draining.inj busy
      exact ⟨w.sent, cmd, rfl, same.1.symm⟩
    · change w.sent ++ [cmd] = w.performed ++ (w.inbox ++ [cmd])
      rw [expected.sent, List.append_assoc]

theorem tracked_read (inverts : codec.Inverts) (kept : Kept codec w) (aligned : Aligned codec w) (expected : Expected w)
    (print : Bool) (taken got rest : List UInt8) (busy : w.phase = .draining print taken)
    (limit : got.length ≤ wanted taken) (split : w.wire = got ++ rest) :
    Tracked codec (w.read codec print taken got rest) := by
  rcases read_outcome codec inverts w aligned print taken got rest busy limit split with
    waits | ⟨event, more, remaining, whole, returns⟩
  · rw [Link.read, waits]
    have aligned' := waiting_aligned codec w aligned print taken got rest busy split waits
    refine ⟨⟨kept.starts, kept.lines⟩, Or.inr ⟨aligned', ?_⟩⟩
    refine fewer_expected w _ expected ?_ (by rw [busy]; rfl) rfl rfl rfl rfl rfl (List.Sublist.refl _)
    intro other later same
    exact ⟨taken, (Phase.draining.inj same).1 ▸ busy⟩
  · obtain ⟨before, cmd, sent, printed⟩ := expected.current print taken busy
    have after := returned_aligned codec w aligned print taken got rest busy split event more remaining whole
    have drop := later_unread w event more remaining
    rw [Link.read, returns]
    cases state : isState event with
    | true =>
        have quiet := state_read w event more remaining expected state
        obtain ⟨_, _, _, answer, known, answered, number, through⟩ :=
          expected.states event (next_unread w event more remaining ▸ List.mem_cons_self) state
        subst answered
        refine ⟨⟨kept.starts, ?_⟩, Or.inr ⟨after .ready rfl _ _, ?_⟩⟩
        · intro line member
          have either : line ∈ w.lines ∨ (print = true ∧ line = (w.sent.length - 1, answer.snapshot)) := by
            cases print with
            | false => exact Or.inl member
            | true => exact (List.mem_append.mp member).imp id (fun here => ⟨rfl, List.mem_singleton.mp here⟩)
          rcases either with old | ⟨isPrinted, rfl⟩
          · exact kept.lines line old
          · have place : w.sent.length - 1 = before.length := by rw [sent, List.length_append]; rfl
            have isSnapshot : cmd = .snapshot := of_decide_eq_true (printed ▸ isPrinted)
            refine ⟨?_, answer, known, by dsimp only; omega, rfl, ?_⟩
            · change w.sent[w.sent.length - 1]? = some .snapshot
              rw [place, sent, isSnapshot, List.getElem?_concat_length]
            · change answer.after = w.sent.take (w.sent.length - 1 + 1)
              rw [through, List.take_of_length_le (by omega)]
        · refine quiet_expected _ (fun _ _ impossible => by cases impossible) expected.sent expected.answering ?_
          intro later member
          exact quiet later (drop ▸ member)
    | false =>
        have aligned' := after (.draining print []) rfl w.lines (w.starts ++ [w.consumed + got.length])
        have next : Tracked codec { w with
            wire := rest
            consumed := w.consumed + got.length
            phase := .draining print []
            returned := w.returned + 1
            starts := w.starts ++ [w.consumed + got.length] } := by
          refine ⟨⟨?_, kept.lines⟩, Or.inr ⟨aligned', ?_⟩⟩
          · intro offset member
            rcases List.mem_append.mp member with old | here
            · exact kept.starts offset old
            · rw [List.mem_singleton.mp here]
              exact aligned_boundary codec _ aligned' rfl
          · refine fewer_expected w _ expected ?_ (by rw [busy]; rfl) rfl rfl rfl rfl rfl ?_
            · intro other later same
              exact ⟨taken, (Phase.draining.inj same).1 ▸ busy⟩
            · rw [next_unread w event more remaining, Link.unread, drop]
              exact (List.sublist_cons_self event _).filter isState
        cases event with
        | state snapshot => cases state
        | trace text => exact next
        | error text => exact next

theorem tracked_server (tracked : Tracked codec w) (inbox performed : List ClientCommand) (host : Host)
    (answering : Bool) (channel : List ServerEvent)
    (expected : Expected w → Expected { w with
      inbox := inbox, performed := performed, host := host, answering := answering, channel := channel }) :
    Tracked codec { w with
      inbox := inbox, performed := performed, host := host, answering := answering, channel := channel } := by
  refine ⟨⟨tracked.1.starts, tracked.1.lines⟩, ?_⟩
  rcases tracked.2 with stopped | ⟨aligned, before⟩
  · exact Or.inl stopped
  · refine Or.inr ⟨?_, expected before⟩
    exact ⟨aligned.returned, aligned.accepted, aligned.consumed, aligned.waiting, aligned.wire⟩

theorem tracked_push (event : ServerEvent) (other : isState event = false) (tracked : Tracked codec w) :
    Tracked codec (w.push event) := by
  have unread := push_unread w event
  obtain ⟨channel, same⟩ := push_eq w event
  rw [same] at unread ⊢
  refine tracked_server codec w tracked w.inbox w.performed w.host w.answering channel (fun expected => ?_)
  refine fewer_expected w _ expected (fun print taken busy => ⟨taken, busy⟩) rfl rfl rfl rfl rfl rfl ?_
  rcases unread with old | grown
  · rw [old]
  · rw [grown, List.filter_append, List.filter_cons_of_neg (by simp [other]), List.filter_nil, List.append_nil]

theorem tracked_perform (tracked : Tracked codec w) (cmd : ClientCommand) (rest : List ClientCommand)
    (next : w.inbox = cmd :: rest) : Tracked codec (w.perform cmd rest) := by
  have done : ∀ answering, Tracked codec { w with
      inbox := rest, performed := w.performed ++ [cmd], host := (w.host.perform cmd).1, answering := answering } := by
    intro answering
    refine tracked_server codec w tracked rest (w.performed ++ [cmd]) _ answering w.channel (fun expected => ?_)
    have quiet := waiting_quiet w expected (Or.inl (by simp [next]))
    have performed : w.sent = (w.performed ++ [cmd]) ++ rest := by
      rw [expected.sent, next, List.append_assoc, List.singleton_append]
    exact quiet_expected _ expected.current performed (fun _ => by simp) quiet
  rw [Link.perform]
  cases (w.host.perform cmd).2 with
  | some e => exact tracked_push codec _ (.error e) rfl (done w.answering)
  | none => exact done true

-- The one State on its way is the answer to the last command sent.
theorem answer_expected (expected : Expected w) (busy : w.answering = true) (waits : w.phase.waits = true)
    (caughtUp : w.performed.length = w.sent.length) (snapshot : Snapshot) :
    Expected { w with
      answering := false
      answers := w.answers ++ [⟨w.performed.length - 1, w.performed, snapshot⟩]
      channel := w.channel ++ [.state snapshot] } := by
  have quiet := waiting_quiet w expected (Or.inr (Or.inl busy))
  have inbox : w.inbox = [] := by
    have lengths := congrArg List.length expected.sent
    rw [List.length_append, caughtUp] at lengths
    exact List.eq_nil_of_length_eq_zero (by omega)
  have all : w.performed = w.sent := by rw [expected.sent, inbox, List.append_nil]
  have some_ : 0 < w.sent.length := List.length_pos_iff.mpr (all ▸ expected.answering busy)
  refine ⟨expected.current, expected.sent, nofun, ?_, ?_⟩
  · intro event member state
    rw [Link.unread, ← List.append_assoc, List.mem_append, List.mem_singleton] at member
    rcases member with old | rfl
    · rw [quiet event old] at state
      cases state
    · refine ⟨waits, inbox, rfl, _, List.mem_append_right _ List.mem_cons_self, rfl, ?_, all⟩
      change w.performed.length - 1 + 1 = w.sent.length
      rw [all]
      omega
  · have before : w.unread.filter isState = [] :=
      List.filter_eq_nil_iff.mpr (fun event member => by simp [quiet event member])
    rw [Link.unread, ← List.append_assoc, List.filter_append]
    change (w.unread.filter isState ++ _).length ≤ 1
    rw [before, List.nil_append]
    exact List.length_filter_le isState _

theorem tracked_answer (tracked : Tracked codec w) (busy : w.answering = true) (awaited : Awaited w) :
    Tracked codec w.answer := by
  have kept : Kept codec { w with
      answering := false
      answers := w.answers ++ [⟨w.performed.length - 1, w.performed, w.host.buildSnapshot⟩] } :=
    kept_grows codec w _ tracked.1 rfl rfl ⟨[], (List.append_nil _).symm⟩ ⟨[], (List.append_nil _).symm⟩ ⟨_, rfl⟩
  rw [Link.answer, Link.push]
  by_cases stopped : w.silent
  · by_cases alive : w.writer = true
    · rw [if_pos alive]
      exact ⟨⟨kept.starts, kept.lines⟩, Or.inl stopped⟩
    · rw [if_neg alive]
      exact ⟨kept, Or.inl stopped⟩
  · obtain ⟨aligned, expected⟩ := tracked.2.resolve_left stopped
    by_cases alive : w.writer = true
    · obtain ⟨waits, caughtUp⟩ := (awaited.resolve_left stopped).resolve_left (by simp [alive])
      rw [if_pos alive]
      refine ⟨⟨kept.starts, kept.lines⟩, Or.inr ⟨?_, answer_expected w expected busy waits caughtUp _⟩⟩
      exact ⟨aligned.returned, aligned.accepted, aligned.consumed, aligned.waiting, aligned.wire⟩
    · have quiet := waiting_quiet w expected (Or.inr (Or.inl busy))
      rw [if_neg alive]
      refine ⟨kept, Or.inr ⟨?_, quiet_expected _ expected.current expected.sent nofun quiet⟩⟩
      exact ⟨aligned.returned, aligned.accepted, aligned.consumed, aligned.waiting, aligned.wire⟩

theorem tracked_write (tracked : Tracked codec w) (event : ServerEvent) (rest : List ServerEvent) (alive : w.writer = true)
    (next : w.channel = event :: rest) (accepted : accepts codec event = true) :
    Tracked codec { w with
      channel := rest
      wire := w.wire ++ frameOf codec event
      written := w.written ++ [event] } := by
  refine ⟨kept_grows codec w _ tracked.1 rfl rfl ⟨[event], rfl⟩ ⟨[], (List.append_nil _).symm⟩
    ⟨[], (List.append_nil _).symm⟩, tracked.2.imp id ?_⟩
  rintro ⟨aligned, expected⟩
  obtain ⟨cut, wire, source⟩ := aligned.wire
  have uncut : cut = [] := source.resolve_right (fun ended => by simp [alive] at ended)
  refine ⟨⟨?_, ?_, ?_, aligned.waiting, [], ?_, Or.inl rfl⟩, ?_⟩
  · exact aligned.returned.trans (by simp)
  · intro other member
    rcases List.mem_append.mp member with old | new
    · exact aligned.accepted other old
    · exact List.mem_singleton.mp new ▸ accepted
  · rw [List.take_append_of_le_length aligned.returned]
    exact aligned.consumed
  · rw [List.drop_append_of_le_length aligned.returned, ← List.append_assoc, wire, uncut]
    simp [stream]
  · refine fewer_expected w _ expected (fun print taken busy => ⟨taken, busy⟩) rfl rfl rfl rfl rfl rfl ?_
    rw [Link.unread, Link.unread, next, List.drop_append_of_le_length aligned.returned, List.append_assoc,
      List.singleton_append]

theorem tracked_writer_ends (tracked : Tracked codec w) (piece : List UInt8) (alive : w.writer = true)
    (cut : piece = [] ∨ ∃ event, accepts codec event = true ∧ piece <+: frameOf codec event ∧
      piece ≠ frameOf codec event) :
    Tracked codec { w with writer := false, channel := [], wire := w.wire ++ piece } := by
  refine ⟨⟨tracked.1.starts, tracked.1.lines⟩, tracked.2.imp id ?_⟩
  rintro ⟨aligned, expected⟩
  obtain ⟨old, wire, source⟩ := aligned.wire
  have uncut : old = [] := source.resolve_right (fun ended => by simp [alive] at ended)
  refine ⟨⟨aligned.returned, aligned.accepted, aligned.consumed, aligned.waiting, piece, ?_, ?_⟩, ?_⟩
  · rw [← List.append_assoc, wire, uncut, List.append_nil]
  · exact cut.imp id (fun part => ⟨rfl, part⟩)
  · refine fewer_expected w _ expected (fun print taken busy => ⟨taken, busy⟩) rfl rfl rfl rfl rfl rfl ?_
    rw [Link.unread, Link.unread, List.append_nil]
    exact (List.sublist_append_left _ _).filter isState

theorem tracked_deadline (tracked : Tracked codec w) (print : Bool) (taken : List UInt8)
    (busy : w.phase = .draining print taken) (inTime : InTime w) : Tracked codec { w with phase := .ready } := by
  refine ⟨⟨tracked.1.starts, tracked.1.lines⟩, ?_⟩
  rcases inTime with last | ⟨between, quiet⟩
  · exact Or.inl (Or.inr ⟨rfl, last⟩)
  · obtain ⟨aligned, expected⟩ := tracked.2.resolve_left (by simp [Link.silent, busy])
    have consumed := aligned.consumed
    have wire := aligned.wire
    rw [between] at consumed wire
    refine Or.inr ⟨⟨aligned.returned, aligned.accepted, consumed, rfl, wire⟩, ?_⟩
    exact quiet_expected _ (fun _ _ impossible => by cases impossible) expected.sent expected.answering quiet

theorem tracked_step (inverts : codec.Inverts) (next : Link) (tracked : Tracked codec w)
    (move : Move codec InTime Awaited w next) : Tracked codec next := by
  cases move with
  | send cmd rest idle follows =>
      obtain ⟨aligned, expected⟩ := tracked.2.resolve_left (by simp [Link.silent, idle, follows])
      exact tracked_send codec w tracked.1 aligned expected cmd rest idle
  | stop idle => exact ⟨⟨tracked.1.starts, tracked.1.lines⟩, Or.inl (Or.inl rfl)⟩
  | read print taken got rest busy some_ limit split =>
      obtain ⟨aligned, expected⟩ := tracked.2.resolve_left (by simp [Link.silent, busy])
      exact tracked_read codec w inverts tracked.1 aligned expected print taken got rest busy limit split
  | readFails print taken busy => exact ⟨⟨tracked.1.starts, tracked.1.lines⟩, Or.inl (Or.inl rfl)⟩
  | deadline print taken busy allowed => exact tracked_deadline codec w tracked print taken busy allowed
  | perform cmd rest follows free => exact tracked_perform codec w tracked cmd rest follows
  | answer busy allowed => exact tracked_answer codec w tracked busy allowed
  | trace text => exact tracked_push codec w (.trace text) rfl tracked
  | others host =>
      refine tracked_server codec w tracked w.inbox w.performed host w.answering w.channel (fun expected => ?_)
      exact ⟨expected.current, expected.sent, expected.answering, expected.states, expected.once⟩
  | write event rest alive follows accepted => exact tracked_write codec w tracked event rest alive follows accepted
  | writerEnds piece alive cut => exact tracked_writer_ends codec w tracked piece alive cut

end Moves

theorem tracked_start (codec : Bincode ServerEvent) (cmds : List String) (host : Host) :
    Tracked codec (Link.start cmds host) := by
  refine ⟨⟨nofun, nofun⟩, Or.inr ⟨⟨le_refl 0, nofun, rfl, rfl, [], rfl, Or.inl rfl⟩, ?_⟩⟩
  exact quiet_expected _ (fun _ _ impossible => by cases impossible) rfl nofun nofun

theorem replies_kept (codec : Bincode ServerEvent) (inverts : codec.Inverts) (cmds : List String) (host : Host) (w : Link)
    (run : Run codec InTime Awaited cmds host w) : Kept codec w := by
  have tracked : Tracked codec w := by
    induction run with
    | start => exact tracked_start codec cmds host
    | move w next _ move ih => exact tracked_step codec w inverts next ih move
  exact tracked.1

def freshHost (me : SiteId) : Host := ⟨(newStateFromBytes me .integrity newSharedDoc).1, newSharedDoc, ∅⟩

theorem refused_insert_kept : ∃ w : Link, Kept eventCodec w ∧ w.lines.map Prod.fst = [2] := by
  have run : Run eventCodec InTime Awaited ["deny A w", "insert 0 a", "snapshot"] (freshHost "A")
    (Link.start ["deny A w", "insert 0 a", "snapshot"] (freshHost "A")) := .start
  have run := run.move _ _ (.send _ (.deny "A" .write) ["insert 0 a", "snapshot"] rfl (by decide +kernel))
  have run := run.move _ _ (.perform _ _ _ rfl rfl)
  have run := run.move _ _ (.answer _ rfl (Or.inr (Or.inr ⟨rfl, rfl⟩)))
  have run := run.move _ _ (.write _ _ _ rfl rfl (by decide +kernel))
  have run := run.move _ _ (.read _ false [] _ _ rfl (by decide +kernel) (by decide +kernel)
    (List.take_append_drop 4 _).symm)
  have run := run.move _ _ (.read _ false [87, 0, 0, 0] _ [] (by decide +kernel) (by decide +kernel) (by decide +kernel)
    (List.append_nil _).symm)
  have run := run.move _ _ (.send _ (.insert 0 'a') ["snapshot"] (by decide +kernel) (by decide +kernel))
  have run := run.move _ _ (.perform _ _ _ rfl (by decide +kernel))
  have run := run.move _ _ (.deadline _ false [] rfl (Or.inr ⟨rfl, by decide +kernel⟩))
  have run := run.move _ _ (.send _ .snapshot [] rfl (by decide +kernel))
  have run := run.move _ _ (.perform _ _ _ rfl (by decide +kernel))
  have run := run.move _ _ (.answer _ rfl (Or.inr (Or.inr ⟨rfl, by decide +kernel⟩)))
  have run := run.move _ _ (.write _ (.error "local site lacks Write right") _ (by decide +kernel) rfl (by decide +kernel))
  have run := run.move _ _ (.write _ _ _ (by decide +kernel) rfl (by decide +kernel))
  have run := run.move _ _ (.read _ true [] _ _ rfl (by decide +kernel) (by decide +kernel)
    (List.take_append_drop 4 _).symm)
  have run := run.move _ _ (.read _ true [40, 0, 0, 0] _ _ (by decide +kernel) (by decide +kernel) (by decide +kernel)
    (List.take_append_drop 40 _).symm)
  have run := run.move _ _ (.read _ true [] _ _ (by decide +kernel) (by decide +kernel) (by decide +kernel)
    (List.take_append_drop 4 _).symm)
  have run := run.move _ _ (.read _ true [87, 0, 0, 0] _ [] (by decide +kernel) (by decide +kernel) (by decide +kernel)
    (List.append_nil _).symm)
  exact ⟨_, replies_kept eventCodec event_codec_inverts _ _ _ run, by decide +kernel⟩

-- A State that comes up after its deadline is printed for a later command, and
-- a call that a deadline cut off leaves the next one inside a frame.
theorem deadlines_mix_replies : (¬ ∀ (cmds : List String) (host : Host) (w : Link),
      Run eventCodec (fun _ => True) (fun _ => True) cmds host w →
      ∀ line ∈ w.lines, ∃ answer ∈ w.answers, answer.command = line.1 ∧ answer.snapshot = line.2 ∧
        answer.after = w.sent.take (line.1 + 1)) ∧
    ¬ ∀ (cmds : List String) (host : Host) (w : Link), Run eventCodec (fun _ => True) (fun _ => True) cmds host w →
      ∀ offset ∈ w.starts, Boundary eventCodec w offset := by
  constructor
  · intro holds
    have run : Run eventCodec (fun _ => True) (fun _ => True) ["insert 0 a", "insert 1 b", "snapshot"] (freshHost "A")
      (Link.start ["insert 0 a", "insert 1 b", "snapshot"] (freshHost "A")) := .start
    have run := run.move _ _ (.send _ (.insert 0 'a') ["insert 1 b", "snapshot"] rfl (by decide +kernel))
    have run := run.move _ _ (.perform _ _ _ rfl rfl)
    have run := run.move _ _ (.deadline _ _ _ rfl trivial)
    have run := run.move _ _ (.answer _ rfl trivial)
    have run := run.move _ _ (.write _ _ _ rfl rfl (by decide +kernel))
    have run := run.move _ _ (.send _ (.insert 1 'b') ["snapshot"] rfl (by decide +kernel))
    have run := run.move _ _ (.perform _ _ _ rfl rfl)
    have run := run.move _ _ (.deadline _ _ _ rfl trivial)
    have run := run.move _ _ (.answer _ rfl trivial)
    have run := run.move _ _ (.send _ .snapshot [] rfl (by decide +kernel))
    have run := run.move _ _ (.read _ true [] _ _ rfl (by decide +kernel) (by decide +kernel)
      (List.take_append_drop 4 _).symm)
    have run := run.move _ _ (.read _ true [88, 0, 0, 0] _ [] (by decide +kernel) (by decide +kernel) (by decide +kernel)
      (List.append_nil _).symm)
    exact absurd (holds _ _ _ run) (by decide +kernel)
  · intro holds
    have run : Run eventCodec (fun _ => True) (fun _ => True) ["insert 0 a", "snapshot"] (freshHost "A")
      (Link.start ["insert 0 a", "snapshot"] (freshHost "A")) := .start
    have run := run.move _ _ (.send _ (.insert 0 'a') ["snapshot"] rfl (by decide +kernel))
    have run := run.move _ _ (.perform _ _ _ rfl rfl)
    have run := run.move _ _ (.answer _ rfl trivial)
    have run := run.move _ _ (.write _ _ _ rfl rfl (by decide +kernel))
    have run := run.move _ _ (.read _ false [] _ _ rfl (by decide +kernel) (by decide +kernel)
      (List.take_append_drop 2 _).symm)
    have run := run.move _ _ (.deadline _ false [88, 0] (by decide +kernel) trivial)
    have run := run.move _ _ (.send _ .snapshot [] rfl (by decide +kernel))
    exact absurd (holds _ _ _ run 2 (by decide +kernel)) (by decide +kernel)

end Accure.Send
