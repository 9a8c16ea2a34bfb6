import Accure.Send
import Mathlib.Data.List.DropRight

set_option autoImplicit false

namespace Accure.Terminal

def helpText : String :=
  "insert <pos> <ch> | delete <pos> | allow <site> <a|r|w> | deny <site> <a|r|w> | snapshot | quit"

structure AppState where
  serverAddr : String
  snapshot : Option Snapshot
  trace : List String
  errors : List String
  input : String
  history : List String
  historyIdx : Option Nat
deriving DecidableEq, Repr

def AppState.new (serverAddr : String) : AppState where
  serverAddr := serverAddr
  snapshot := none
  trace := []
  errors := []
  input := ""
  history := []
  historyIdx := none

def pushBounded (limit : Nat) (rows : List String) (s : String) : List String :=
  let rows := rows ++ [s]
  if rows.length > limit then rows.drop (rows.length - limit) else rows

def AppState.pushTrace (app : AppState) (s : String) : AppState := { app with trace := pushBounded 500 app.trace s }

def AppState.pushError (app : AppState) (s : String) : AppState := { app with errors := pushBounded 16 app.errors s }

def applyServerEvent (app : AppState) : ServerEvent → AppState
  | .state s => { app with snapshot := some s }
  | .trace t => app.pushTrace t
  | .error e => app.pushError e

inductive KeyEventKind where
  | press
  | repeated
  | release
deriving DecidableEq, Repr

inductive KeyCode where
  | esc
  | char (c : Char)
  | backspace
  | up
  | down
  | enter
  | other
deriving DecidableEq, Repr

structure KeyEvent where
  kind : KeyEventKind
  control : Bool
  code : KeyCode
deriving DecidableEq, Repr

-- What handle_key returns, with the command it sends. A Snapshot is sent after it.
structure Handled where
  app : AppState
  quit : Bool
  command : Option ClientCommand
deriving DecidableEq, Repr

def stays (app : AppState) : Handled := ⟨app, false, none⟩

def quitWords : List String := ["quit", "q", "exit"]

def helpWords : List String := ["help", "?"]

def AppState.submit (app : AppState) (line : String) : Handled :=
  let trimmed := String.ofList (Send.trim line)
  if trimmed.isEmpty then stays app
  else if trimmed ∈ quitWords then ⟨app, true, none⟩
  else if trimmed ∈ helpWords then stays (app.pushTrace ("help: " ++ helpText))
  else if trimmed = "clear" then stays { app with trace := [], errors := [] }
  else
    let app := { app with history := pushBounded 100 app.history trimmed }
    match parseCommand trimmed with
    | .ok cmd => ⟨app, false, some cmd⟩
    | .error .empty => stays app
    | .error e => stays (app.pushError e.display)

-- app.history[i], which panics outside of the history.
def AppState.recall (app : AppState) (i : Nat) : Option Handled :=
  (app.history[i]?).map fun line => stays { app with historyIdx := some i, input := line }

def handleKey (app : AppState) (key : KeyEvent) : Option Handled :=
  if key.kind = .release then some (stays app)
  else if key.control && key.code = .char 'c' then some ⟨app, true, none⟩
  else
    match key.code with
    | .esc => some ⟨app, true, none⟩
    | .char c => some (stays { app with input := app.input.push c, historyIdx := none })
    | .backspace => some (stays { app with input := String.ofList app.input.toList.dropLast, historyIdx := none })
    | .up =>
        if app.history.isEmpty then some (stays app)
        else
          match app.historyIdx with
          | none => app.recall (app.history.length - 1)
          | some 0 => app.recall 0
          | some i => app.recall (i - 1)
    | .down =>
        match app.historyIdx with
        | none => some (stays app)
        | some i =>
            if i + 1 < app.history.length then app.recall (i + 1)
            else some (stays { app with historyIdx := none, input := "" })
    | .enter => some ({ app with input := "", historyIdx := none }.submit app.input)
    | .other => some (stays app)

theorem push_bounded_le (limit : Nat) (rows : List String) (s : String) : (pushBounded limit rows s).length ≤ limit := by
  simp only [pushBounded, List.length_append, List.length_singleton]
  split
  · simp only [List.length_drop, List.length_append, List.length_singleton]
    omega
  · simp only [List.length_append, List.length_singleton]
    omega

theorem push_bounded_suffix (limit : Nat) (rows : List String) (s : String) : pushBounded limit rows s <:+ rows ++ [s] := by
  rw [pushBounded]
  split
  · exact List.drop_suffix _ _
  · exact List.suffix_rfl

theorem mem_push_bounded (limit : Nat) (rows : List String) (s line : String) (member : line ∈ pushBounded limit rows s) :
    line ∈ rows ∨ line = s := by
  have inside := (push_bounded_suffix limit rows s).subset member
  rwa [List.mem_append, List.mem_singleton] at inside

theorem trim_edges (letters : List Char) :
    (letters.rdropWhile isWhitespace).dropWhile isWhitespace = letters.rdropWhile isWhitespace ∨
      letters.dropWhile isWhitespace ≠ letters := by
  by_cases start : letters.dropWhile isWhitespace = letters
  · left
    rw [List.dropWhile_eq_self_iff] at start ⊢
    intro nonempty
    have front := (List.rdropWhile_prefix isWhitespace letters)
    have inside : 0 < letters.length := lt_of_lt_of_le nonempty front.length_le
    have same := front.getElem nonempty
    rw [same]
    exact start inside
  · exact Or.inr start

theorem trim_twice (line : String) : Send.trim (String.ofList (Send.trim line)) = Send.trim line := by
  have again : (line.toList.dropWhile isWhitespace).dropWhile isWhitespace = line.toList.dropWhile isWhitespace :=
    List.dropWhile_idempotent _ _
  have front := (trim_edges (line.toList.dropWhile isWhitespace)).resolve_right (not_not.mpr again)
  have back := List.rdropWhile_idempotent isWhitespace (line.toList.dropWhile isWhitespace)
  change (((String.ofList ((line.toList.dropWhile isWhitespace).rdropWhile isWhitespace)).toList).dropWhile
    isWhitespace).rdropWhile isWhitespace = (line.toList.dropWhile isWhitespace).rdropWhile isWhitespace
  rw [String.toList_ofList, front, back]

structure Entered (line : String) : Prop where
  trimmed : String.ofList (Send.trim line) = line
  nonempty : line.isEmpty = false
  command : line ∉ quitWords ∧ line ∉ helpWords ∧ line ≠ "clear"

structure Kept (app : AppState) : Prop where
  trace : app.trace.length ≤ 500
  errors : app.errors.length ≤ 16
  history : app.history.length ≤ 100
  lines : ∀ line ∈ app.history, Entered line
  cursor : ∀ i, app.historyIdx = some i → app.history[i]? = some app.input

theorem kept_new (serverAddr : String) : Kept (AppState.new serverAddr) := by
  refine ⟨?_, ?_, ?_, ?_, ?_⟩ <;> simp [AppState.new]

section Kept

variable (app : AppState) (kept : Kept app)

include kept

theorem kept_trace (s : String) : Kept (app.pushTrace s) :=
  ⟨push_bounded_le _ _ _, kept.errors, kept.history, kept.lines, kept.cursor⟩

theorem kept_error (s : String) : Kept (app.pushError s) :=
  ⟨kept.trace, push_bounded_le _ _ _, kept.history, kept.lines, kept.cursor⟩

theorem kept_event (event : ServerEvent) : Kept (applyServerEvent app event) := by
  cases event with
  | state s => exact ⟨kept.trace, kept.errors, kept.history, kept.lines, kept.cursor⟩
  | trace t => exact kept_trace app kept t
  | error e => exact kept_error app kept e

theorem kept_input (input : String) : Kept { app with input := input, historyIdx := none } :=
  ⟨kept.trace, kept.errors, kept.history, kept.lines, nofun⟩

theorem kept_submit (line : String) (free : app.historyIdx = none) : Kept (app.submit line).app := by
  rw [AppState.submit]
  split
  · exact kept
  split
  · exact kept
  split
  · exact kept_trace app kept _
  split
  · exact ⟨Nat.zero_le _, Nat.zero_le _, kept.history, kept.lines, kept.cursor⟩
  · rename_i nonempty quit help clear
    have entered : Entered (String.ofList (Send.trim line)) := by
      refine ⟨by rw [trim_twice], by simpa using nonempty, quit, help, clear⟩
    have pushed : Kept { app with history := pushBounded 100 app.history (String.ofList (Send.trim line)) } := by
      refine ⟨kept.trace, kept.errors, push_bounded_le _ _ _, ?_, ?_⟩
      · intro old member
        rcases mem_push_bounded _ _ _ old member with inside | rfl
        · exact kept.lines old inside
        · exact entered
      · intro i here
        rw [free] at here
        cases here
    cases parseCommand (String.ofList (Send.trim line)) with
    | ok cmd => exact pushed
    | error e =>
        cases e with
        | empty => exact pushed
        | unknown s => exact kept_error _ pushed _
        | usage u => exact kept_error _ pushed _

theorem recall_ok (i : Nat) (inside : i < app.history.length) :
    ∃ handled, app.recall i = some handled ∧ Kept handled.app := by
  refine ⟨stays { app with historyIdx := some i, input := app.history[i] }, ?_, ?_⟩
  · rw [AppState.recall, List.getElem?_eq_getElem inside]
    rfl
  · refine ⟨kept.trace, kept.errors, kept.history, kept.lines, ?_⟩
    intro j here
    obtain rfl := Option.some.inj here
    exact List.getElem?_eq_getElem inside

theorem cursor_inside (i : Nat) (here : app.historyIdx = some i) : i < app.history.length :=
  (List.getElem?_eq_some_iff.mp (kept.cursor i here)).1

theorem handle_key_ok (key : KeyEvent) : ∃ handled, handleKey app key = some handled ∧ Kept handled.app := by
  rw [handleKey]
  split
  · exact ⟨_, rfl, kept⟩
  split
  · exact ⟨_, rfl, kept⟩
  cases key.code with
  | esc => exact ⟨_, rfl, kept⟩
  | char c => exact ⟨_, rfl, kept_input app kept _⟩
  | backspace => exact ⟨_, rfl, kept_input app kept _⟩
  | up =>
      by_cases empty : app.history.isEmpty = true
      · exact ⟨_, if_pos empty, kept⟩
      · have some_ : 0 < app.history.length := List.length_pos_iff.mpr (by simpa using empty)
        simp only [if_neg empty]
        cases idx : app.historyIdx with
        | none => exact recall_ok app kept _ (by omega)
        | some i =>
            have inside := cursor_inside app kept i idx
            cases i with
            | zero => exact recall_ok app kept _ some_
            | succ i => exact recall_ok app kept _ (by omega)
  | down =>
      cases idx : app.historyIdx with
      | none => exact ⟨_, rfl, kept⟩
      | some i =>
          by_cases newer : i + 1 < app.history.length
          · simp only [if_pos newer]
            exact recall_ok app kept _ newer
          · simp only [if_neg newer]
            exact ⟨_, rfl, kept_input app kept ""⟩
  | enter => exact ⟨_, rfl, kept_submit _ (kept_input app kept "") app.input rfl⟩
  | other => exact ⟨_, rfl, kept⟩

end Kept

-- What the loop in run handles after it has drawn: an event or the end of the
-- events, a key, an error of the keys, or a command that could not be sent.
inductive Input where
  | event (event : ServerEvent)
  | closed
  | key (key : KeyEvent)
  | keyError (e : String)
  | unsent
deriving DecidableEq, Repr

def AppState.handle (app : AppState) : Input → Option Handled
  | .event event => some (stays (applyServerEvent app event))
  | .closed => some (stays (app.pushError "server connection closed"))
  | .key key => handleKey app key
  | .keyError e => some (stays (app.pushError ("input error: " ++ e)))
  | .unsent => some (stays (app.pushError "server channel closed"))

structure Rect where
  x : Nat
  y : Nat
  width : Nat
  height : Nat
  right : x + width < 65536
  bottom : y + height < 65536

-- Where draw_input sets the cursor. Its sums are of u16, and a build with overflow
-- checks panics where one of them does not fit.
def drawInput (area : Rect) (app : AppState) : Option (Option (Nat × Nat)) :=
  let cursorX := area.x + 3 + app.input.length % 65536
  let cursorY := area.y + 1
  if cursorX < 65536 ∧ cursorY < 65536 then
    some (if cursorX < area.x + (area.width - 1) then some (cursorX, cursorY) else none)
  else none

def AppState.turn (app : AppState) (area : Rect) (input : Input) : Option Handled :=
  (drawInput area app).bind fun _ => app.handle input

theorem handle_ok (app : AppState) (kept : Kept app) (input : Input) :
    ∃ handled, app.handle input = some handled ∧ Kept handled.app := by
  cases input with
  | event event => exact ⟨_, rfl, kept_event app kept event⟩
  | closed => exact ⟨_, rfl, kept_error app kept _⟩
  | key key => exact handle_key_ok app kept key
  | keyError e => exact ⟨_, rfl, kept_error app kept _⟩
  | unsent => exact ⟨_, rfl, kept_error app kept _⟩

instance (line : String) : Decidable (Entered line) :=
  decidable_of_iff (String.ofList (Send.trim line) = line ∧ line.isEmpty = false ∧
      line ∉ quitWords ∧ line ∉ helpWords ∧ line ≠ "clear")
    ⟨fun all => ⟨all.1, all.2.1, all.2.2⟩, fun entered => ⟨entered.trimmed, entered.nonempty, entered.command⟩⟩

def AppState.enters (app : AppState) : Input → Option String
  | .key key =>
      let line := String.ofList (Send.trim app.input)
      if key.kind ≠ .release ∧ key.code = .enter ∧ Entered line then some line else none
  | _ => none

def readCommand (line : String) : Option ClientCommand := (parseCommand line).toOption

theorem submit_enters (app : AppState) (line : String) :
    (Entered (String.ofList (Send.trim line)) → (app.submit line).command = readCommand (String.ofList (Send.trim line)) ∧
      (app.submit line).app.history = pushBounded 100 app.history (String.ofList (Send.trim line))) ∧
    (¬ Entered (String.ofList (Send.trim line)) → (app.submit line).command = none ∧
      (app.submit line).app.history = app.history) := by
  have trimmed : String.ofList (Send.trim (String.ofList (Send.trim line))) = String.ofList (Send.trim line) := by
    rw [trim_twice]
  rw [AppState.submit, readCommand]
  generalize String.ofList (Send.trim line) = word at trimmed ⊢
  split
  · rename_i empty
    exact ⟨fun entered => absurd entered.nonempty (by simp [empty]), fun _ => ⟨rfl, rfl⟩⟩
  split
  · rename_i quit
    exact ⟨fun entered => absurd quit entered.command.1, fun _ => ⟨rfl, rfl⟩⟩
  split
  · rename_i help
    exact ⟨fun entered => absurd help entered.command.2.1, fun _ => ⟨rfl, rfl⟩⟩
  split
  · rename_i clear
    exact ⟨fun entered => absurd clear entered.command.2.2, fun _ => ⟨rfl, rfl⟩⟩
  · rename_i nonempty quit help clear
    refine ⟨fun _ => ?_, fun refused => absurd ⟨trimmed, by simpa using nonempty, quit, help, clear⟩ refused⟩
    cases parseCommand word with
    | ok cmd => exact ⟨rfl, rfl⟩
    | error e => cases e <;> exact ⟨rfl, rfl⟩

theorem recall_keeps (app : AppState) (i : Nat) (handled : Handled) (goes : app.recall i = some handled) :
    handled.command = none ∧ handled.app.history = app.history := by
  rw [AppState.recall, Option.map_eq_some_iff] at goes
  obtain ⟨line, _, rfl⟩ := goes
  exact ⟨rfl, rfl⟩

def noteLine (history : List String) (line : Option String) : List String :=
  match line with
  | none => history
  | some line => pushBounded 100 history line

@[simp] theorem note_none (history : List String) : noteLine history none = history := rfl

@[simp] theorem note_some (history : List String) (line : String) :
    noteLine history (some line) = pushBounded 100 history line := rfl

theorem key_enters (app : AppState) (key : KeyEvent) (handled : Handled) (goes : handleKey app key = some handled) :
    handled.command = (app.enters (.key key)).bind readCommand ∧
      handled.app.history = noteLine app.history (app.enters (.key key)) := by
  have nothing : key.code ≠ .enter → app.enters (.key key) = none := fun other => if_neg (fun all => other all.2.1)
  rw [handleKey] at goes
  split at goes
  · rename_i released
    obtain rfl := Option.some.inj goes
    rw [show app.enters (.key key) = none from if_neg (fun all => all.1 released)]
    exact ⟨rfl, rfl⟩
  rename_i pressed
  split at goes
  · rename_i interrupt
    obtain rfl := Option.some.inj goes
    have code : key.code = .char 'c' := by simpa using (Bool.and_eq_true_iff.mp interrupt).2
    rw [nothing (by rw [code]; decide)]
    exact ⟨rfl, rfl⟩
  cases code : key.code with
  | enter =>
      rw [code] at goes
      have submitted := submit_enters { app with input := "", historyIdx := none } app.input
      rw [Option.some.inj goes] at submitted
      by_cases entered : Entered (String.ofList (Send.trim app.input))
      · rw [show app.enters (.key key) = some _ from if_pos ⟨pressed, code, entered⟩, Option.bind_some, note_some]
        exact submitted.1 entered
      · rw [show app.enters (.key key) = none from if_neg (fun all => entered all.2.2), Option.bind_none, note_none]
        exact submitted.2 entered
  | esc =>
      rw [code] at goes
      obtain rfl := Option.some.inj goes
      rw [nothing (by rw [code]; decide)]
      exact ⟨rfl, rfl⟩
  | char c =>
      rw [code] at goes
      obtain rfl := Option.some.inj goes
      rw [nothing (by rw [code]; exact KeyCode.noConfusion)]
      exact ⟨rfl, rfl⟩
  | backspace =>
      rw [code] at goes
      obtain rfl := Option.some.inj goes
      rw [nothing (by rw [code]; decide)]
      exact ⟨rfl, rfl⟩
  | up =>
      rw [nothing (by rw [code]; decide)]
      rw [code] at goes
      dsimp only at goes
      split at goes
      · obtain rfl := Option.some.inj goes
        exact ⟨rfl, rfl⟩
      split at goes
      · exact recall_keeps app _ handled goes
      · exact recall_keeps app _ handled goes
      · exact recall_keeps app _ handled goes
  | down =>
      rw [nothing (by rw [code]; decide)]
      rw [code] at goes
      dsimp only at goes
      split at goes
      · obtain rfl := Option.some.inj goes
        exact ⟨rfl, rfl⟩
      split at goes
      · exact recall_keeps app _ handled goes
      · obtain rfl := Option.some.inj goes
        exact ⟨rfl, rfl⟩
  | other =>
      rw [code] at goes
      obtain rfl := Option.some.inj goes
      rw [nothing (by rw [code]; decide)]
      exact ⟨rfl, rfl⟩

theorem handle_enters (app : AppState) (input : Input) (handled : Handled) (goes : app.handle input = some handled) :
    handled.command = (app.enters input).bind readCommand ∧
      handled.app.history = noteLine app.history (app.enters input) := by
  cases input with
  | event event =>
      obtain rfl := Option.some.inj goes
      cases event <;> exact ⟨rfl, rfl⟩
  | closed =>
      obtain rfl := Option.some.inj goes
      exact ⟨rfl, rfl⟩
  | key key => exact key_enters app key handled goes
  | keyError e =>
      obtain rfl := Option.some.inj goes
      exact ⟨rfl, rfl⟩
  | unsent =>
      obtain rfl := Option.some.inj goes
      exact ⟨rfl, rfl⟩

def lastRows (limit : Nat) (rows : List String) : List String := rows.drop (rows.length - limit)

theorem push_last_rows (limit : Nat) (rows : List String) (s : String) :
    pushBounded limit (lastRows limit rows) s = lastRows limit (rows ++ [s]) := by
  simp only [pushBounded, lastRows, List.length_append, List.length_drop, List.length_singleton]
  by_cases full : rows.length < limit
  · rw [if_neg (by omega), show rows.length - limit = 0 by omega, show rows.length + 1 - limit = 0 by omega,
      List.drop_zero, List.drop_zero]
  · rw [if_pos (by omega), ← List.drop_append_of_le_length (by omega), List.drop_drop]
    congr 1
    omega

inductive Handling : AppState → List String → List ClientCommand → Prop where
  | start (serverAddr : String) : Handling (AppState.new serverAddr) [] []
  | turn (app : AppState) (lines : List String) (cmds : List ClientCommand) (input : Input) (handled : Handled)
      (before : Handling app lines cmds) (goes : app.handle input = some handled) (stay : handled.quit = false) :
      Handling handled.app (lines ++ (app.enters input).toList) (cmds ++ handled.command.toList)

def press (code : KeyCode) : KeyEvent := ⟨.press, false, code⟩

def refreshed : AppState := { AppState.new "server" with history := ["s"] }

def AppState.keys (app : AppState) : List KeyEvent → Option AppState
  | [] => some app
  | key :: rest => (handleKey app key).bind fun handled => handled.app.keys rest

theorem typed_keys (app : AppState) (letters : List Char) (free : app.historyIdx = none) :
    app.keys (letters.map fun c => press (.char c)) = some { app with input := app.input ++ String.ofList letters } := by
  induction letters generalizing app with
  | nil => simp [AppState.keys]
  | cons c rest ih =>
      have step : handleKey app (press (.char c)) = some (stays { app with input := app.input.push c, historyIdx := none }) := by
        simp [handleKey, press]
      rw [List.map_cons, AppState.keys, step, Option.bind_some]
      refine (ih _ rfl).trans ?_
      have letters : app.input.push c ++ String.ofList rest = app.input ++ String.ofList (c :: rest) := by
        apply String.toList_injective
        simp
      simp only [stays, letters, free]

def arrow (newer : Bool) : KeyEvent := press (if newer then .down else .up)

def walk (len back : Nat) (newer : Bool) : Nat := if newer then back - 1 else min (back + 1) len

structure Stands (app : AppState) (back : Nat) (last : AppState) : Prop where
  frame : last = { app with input := last.input, historyIdx := last.historyIdx }
  within : back ≤ app.history.length
  free : back = 0 → last.historyIdx = none
  line : 0 < back → last.historyIdx = some (app.history.length - back) ∧
    app.history[app.history.length - back]? = some last.input

section Arrows

variable (app : AppState) (back : Nat) (last : AppState) (stands : Stands app back last)

include stands

theorem stands_recall (next : Nat) (some_ : 0 < next) (inside : next ≤ app.history.length) :
    ∃ reached, last.recall (app.history.length - next) = some (stays reached) ∧ Stands app next reached := by
  have history : last.history = app.history := by rw [stands.frame]
  have place : app.history.length - next < app.history.length := by omega
  refine ⟨{ app with historyIdx := some (app.history.length - next), input := app.history[app.history.length - next] },
    ?_, rfl, inside, fun zero => absurd zero (by omega), fun _ => ⟨rfl, List.getElem?_eq_getElem place⟩⟩
  rw [AppState.recall, history, List.getElem?_eq_getElem place, Option.map_some, stands.frame]

theorem arrow_stands (newer : Bool) :
    ∃ next, handleKey last (arrow newer) = some (stays next) ∧ Stands app (walk app.history.length back newer) next := by
  have history : last.history = app.history := by rw [stands.frame]
  have within := stands.within
  cases newer with
  | false =>
      by_cases empty : app.history = []
      · have zero : back = 0 := by simpa [empty] using within
        refine ⟨last, ?_, ?_⟩
        · simp [handleKey, arrow, press, history, empty]
        · simpa [walk, empty, zero] using zero ▸ stands
      · have some_ : 0 < app.history.length := List.length_pos_iff.mpr empty
        have blank : app.history.isEmpty = false := by simpa using empty
        have goes : handleKey last (arrow false) = last.recall (app.history.length - min (back + 1) app.history.length) := by
          by_cases zero : back = 0
          · have newest : min (0 + 1) app.history.length = 1 := by omega
            simp only [handleKey, arrow, press, blank, stands.free zero, zero, newest, history]
            simp
          · have idx := (stands.line (by omega)).1
            simp only [handleKey, arrow, press, history, blank, idx]
            cases place : app.history.length - back with
            | zero =>
                rw [show app.history.length - min (back + 1) app.history.length = 0 by omega]
                simp
            | succ i =>
                rw [show app.history.length - min (back + 1) app.history.length = i by omega]
                simp
        rw [goes]
        exact stands_recall app back last stands (min (back + 1) app.history.length) (by omega) (by omega)
  | true =>
      by_cases zero : back = 0
      · refine ⟨last, ?_, ?_⟩
        · simp [handleKey, arrow, press, stands.free zero]
        · simpa [walk, zero] using zero ▸ stands
      · have idx := (stands.line (by omega)).1
        by_cases newest : back = 1
        · refine ⟨{ last with historyIdx := none, input := "" }, ?_, ?_⟩
          · have outside : ¬ app.history.length - back + 1 < app.history.length := by omega
            simp [handleKey, arrow, press, idx, history, outside]
          · refine ⟨?_, by simp [walk, newest], fun _ => rfl, fun pos => absurd pos (by simp [walk, newest])⟩
            rw [stands.frame]
        · have goes : handleKey last (arrow true) = last.recall (app.history.length - (back - 1)) := by
            have inside : app.history.length - back + 1 < app.history.length := by omega
            simp only [handleKey, arrow, press, idx, history, if_pos inside]
            rw [show app.history.length - (back - 1) = app.history.length - back + 1 by omega]
            simp
          rw [goes]
          exact stands_recall app back last stands (back - 1) (by omega) (by omega)

end Arrows

theorem arrows_stand (app : AppState) (arrows : List Bool) (back : Nat) (last : AppState) (stands : Stands app back last) :
    ∃ reached, last.keys (arrows.map arrow) = some reached ∧
      Stands app (arrows.foldl (walk app.history.length) back) reached := by
  induction arrows generalizing back last with
  | nil => exact ⟨last, rfl, stands⟩
  | cons newer rest ih =>
      obtain ⟨next, goes, nextStands⟩ := arrow_stands app back last stands newer
      obtain ⟨reached, done, reachedStands⟩ := ih _ next nextStands
      refine ⟨reached, ?_, reachedStands⟩
      rw [List.map_cons, AppState.keys, goes, Option.bind_some]
      exact done

theorem stands_start (app : AppState) (free : app.historyIdx = none) : Stands app 0 app :=
  ⟨rfl, Nat.zero_le _, fun _ => free, fun pos => absurd pos (Nat.lt_irrefl 0)⟩

theorem enter_submits (app : AppState) :
    handleKey app (press .enter) = some ({ app with input := "", historyIdx := none }.submit app.input) := by
  simp [handleKey, press]

-- However the arrows led to a line, Enter does with it what it does with the same
-- line typed.
theorem recalled_as_typed (app : AppState) (free : app.historyIdx = none) (blank : app.input = "") (arrows : List Bool)
    (back : Nat) (led : arrows.foldl (walk app.history.length) 0 = back) (some_ : 0 < back) :
    ∃ last typed line, app.keys (arrows.map arrow) = some last ∧
      app.history[app.history.length - back]? = some line ∧ last.input = line ∧
      app.keys (line.toList.map fun c => press (.char c)) = some typed ∧
      handleKey last (press .enter) = handleKey typed (press .enter) := by
  obtain ⟨last, done, stands⟩ := arrows_stand app arrows 0 app (stands_start app free)
  rw [led] at stands
  refine ⟨last, _, last.input, done, (stands.line some_).2, rfl, typed_keys app last.input.toList free, ?_⟩
  rw [enter_submits, enter_submits, stands.frame]
  simp [blank]

theorem refreshed_recalled : ∃ last, refreshed.keys ([false, false].map arrow) = some last ∧ last.input = "s" := by
  obtain ⟨last, typed, line, done, found, input, _⟩ := recalled_as_typed refreshed rfl rfl [false, false] 1
    (by decide +kernel) (by decide)
  refine ⟨last, done, ?_⟩
  rw [input]
  exact (Option.some.inj found).symm

end Accure.Terminal
