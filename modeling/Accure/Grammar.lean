import Accure.Command

set_option autoImplicit false

namespace Accure

def insertNames : List String := ["insert", "i"]

def deleteNames : List String := ["delete", "del", "d", "x"]

def snapshotNames : List String := ["snapshot", "s", "refresh"]

inductive RightName : String → Right → Prop where
  | admin (word : String) (spelled : word.toLower ∈ ["a", "admin"]) : RightName word .admin
  | read (word : String) (spelled : word.toLower ∈ ["r", "read"]) : RightName word .read
  | write (word : String) (spelled : word.toLower ∈ ["w", "write"]) : RightName word .write

-- The grammar of the command line: the words of a line and what they stand for.
inductive Denotes : List String → ClientCommand → Prop where
  | insert (head pos : String) (n : Nat) (ch : Char) (name : head.toLower ∈ insertNames) (number : parseUsize pos = some n) :
      Denotes [head, pos, String.singleton ch] (.insert n ch)
  | delete (head pos : String) (n : Nat) (name : head.toLower ∈ deleteNames) (number : parseUsize pos = some n) :
      Denotes [head, pos] (.delete n)
  | allow (head site word : String) (right : Right) (name : head.toLower = "allow") (named : RightName word right) :
      Denotes [head, site, word] (.allow site right)
  | deny (head site word : String) (right : Right) (name : head.toLower = "deny") (named : RightName word right) :
      Denotes [head, site, word] (.deny site right)
  | snapshot (head : String) (name : head.toLower ∈ snapshotNames) : Denotes [head] .snapshot

-- What parse_command goes by: it stops reading once it has a command, inside
-- a word even.
inductive Reads : List String → ClientCommand → Prop where
  | insert (head pos word : String) (rest : List String) (n : Nat) (ch : Char) (more : List Char)
      (name : head.toLower ∈ insertNames) (number : parseUsize pos = some n) (letters : word.toList = ch :: more) :
      Reads (head :: pos :: word :: rest) (.insert n ch)
  | delete (head pos : String) (rest : List String) (n : Nat) (name : head.toLower ∈ deleteNames)
      (number : parseUsize pos = some n) : Reads (head :: pos :: rest) (.delete n)
  | allow (head site word : String) (rest : List String) (right : Right) (name : head.toLower = "allow")
      (named : Right.parse word = some right) : Reads (head :: site :: word :: rest) (.allow site right)
  | deny (head site word : String) (rest : List String) (right : Right) (name : head.toLower = "deny")
      (named : Right.parse word = some right) : Reads (head :: site :: word :: rest) (.deny site right)
  | snapshot (head : String) (rest : List String) (name : head.toLower ∈ snapshotNames) : Reads (head :: rest) .snapshot

theorem right_parse_iff (word : String) (right : Right) : Right.parse word = some right ↔ RightName word right := by
  constructor
  · intro parsed
    rw [Right.parse] at parsed
    by_cases admin : word.toLower = "a" ∨ word.toLower = "admin"
    · rw [if_pos admin, Option.some.injEq] at parsed
      exact parsed ▸ .admin word (by simpa using admin)
    · by_cases write : word.toLower = "w" ∨ word.toLower = "write"
      · rw [if_neg admin, if_pos write, Option.some.injEq] at parsed
        exact parsed ▸ .write word (by simpa using write)
      · by_cases read : word.toLower = "r" ∨ word.toLower = "read"
        · rw [if_neg admin, if_neg write, if_pos read, Option.some.injEq] at parsed
          exact parsed ▸ .read word (by simpa using read)
        · simp [admin, write, read] at parsed
  · intro named
    cases named with
    | admin spelled => rcases List.mem_pair.mp spelled with name | name <;> simp [Right.parse, name]
    | read spelled => rcases List.mem_pair.mp spelled with name | name <;> simp [Right.parse, name]
    | write spelled => rcases List.mem_pair.mp spelled with name | name <;> simp [Right.parse, name]

theorem parse_pos_ok (usage : String) (parts rest : List String) (n : Nat) :
    parsePos usage parts = .ok (n, rest) ↔ ∃ pos, parts = pos :: rest ∧ parseUsize pos = some n := by
  cases parts with
  | nil => simp [parsePos]
  | cons pos tail =>
      cases number : parseUsize pos with
      | none => simp [parsePos, number]
      | some m =>
          simp only [parsePos, number, Except.ok.injEq, Prod.mk.injEq, List.cons.injEq]
          constructor
          · rintro ⟨rfl, rfl⟩
            exact ⟨pos, ⟨rfl, rfl⟩, number⟩
          · rintro ⟨_, ⟨rfl, rfl⟩, same⟩
            exact ⟨Option.some.inj (number.symm.trans same), rfl⟩

theorem parse_insert_ok (parts : List String) (c : ClientCommand) : parseInsert parts = .ok c ↔
    ∃ pos word rest n ch more, parts = pos :: word :: rest ∧ parseUsize pos = some n ∧ word.toList = ch :: more ∧
      c = .insert n ch := by
  constructor
  · intro parsed
    rw [parseInsert] at parsed
    split at parsed
    · cases parsed
    · cases parsed
    · next n word rest position =>
        obtain ⟨pos, rfl, number⟩ := (parse_pos_ok _ _ _ _).mp position
        cases letters : word.toList with
        | nil => simp [letters] at parsed
        | cons ch more =>
            simp only [letters, List.head?_cons, Except.ok.injEq] at parsed
            exact ⟨pos, word, rest, n, ch, more, rfl, number, letters, parsed.symm⟩
  · rintro ⟨pos, word, rest, n, ch, more, rfl, number, letters, rfl⟩
    simp [parseInsert, parsePos, number, letters]

theorem parse_delete_ok (parts : List String) (c : ClientCommand) : parseDelete parts = .ok c ↔
    ∃ pos rest n, parts = pos :: rest ∧ parseUsize pos = some n ∧ c = .delete n := by
  constructor
  · intro parsed
    rw [parseDelete] at parsed
    split at parsed
    · cases parsed
    · next n rest position =>
        obtain ⟨pos, rfl, number⟩ := (parse_pos_ok _ _ _ _).mp position
        exact ⟨pos, rest, n, rfl, number, (Except.ok.inj parsed).symm⟩
  · rintro ⟨pos, rest, n, rfl, number, rfl⟩
    simp [parseDelete, parsePos, number]

theorem parse_change_ok (usage : String) (command : SiteId → Right → ClientCommand) (parts : List String)
    (c : ClientCommand) : parseChange usage command parts = .ok c ↔
      ∃ site word rest right, parts = site :: word :: rest ∧ Right.parse word = some right ∧ c = command site right := by
  match parts with
  | [] => simp [parseChange]
  | [_] => simp [parseChange]
  | site :: word :: rest =>
      cases named : Right.parse word with
      | none => simp [parseChange, named]
      | some right =>
          simp only [parseChange, named, Except.ok.injEq, List.cons.injEq]
          constructor
          · rintro rfl
            exact ⟨site, word, rest, right, ⟨rfl, rfl, rfl⟩, named, rfl⟩
          · rintro ⟨_, _, _, _, ⟨rfl, rfl, rfl⟩, same, rfl⟩
            rw [Option.some.inj (named.symm.trans same)]

theorem parse_head_reads (head : String) (parts : List String) (c : ClientCommand)
    (parsed : parseHead head.toLower parts = .ok c) : Reads (head :: parts) c := by
  rw [parseHead] at parsed
  by_cases insert : head.toLower = "insert" ∨ head.toLower = "i"
  · rw [if_pos insert] at parsed
    obtain ⟨pos, word, rest, n, ch, more, rfl, number, letters, rfl⟩ := (parse_insert_ok parts c).mp parsed
    exact .insert head pos word rest n ch more (by simpa [insertNames] using insert) number letters
  rw [if_neg insert] at parsed
  by_cases delete : head.toLower = "delete" ∨ head.toLower = "del" ∨ head.toLower = "d" ∨ head.toLower = "x"
  · rw [if_pos delete] at parsed
    obtain ⟨pos, rest, n, rfl, number, rfl⟩ := (parse_delete_ok parts c).mp parsed
    exact .delete head pos rest n (by simpa [deleteNames] using delete) number
  rw [if_neg delete] at parsed
  by_cases allow : head.toLower = "allow"
  · rw [if_pos allow] at parsed
    obtain ⟨site, word, rest, right, rfl, named, rfl⟩ := (parse_change_ok _ _ parts c).mp parsed
    exact .allow head site word rest right allow named
  rw [if_neg allow] at parsed
  by_cases deny : head.toLower = "deny"
  · rw [if_pos deny] at parsed
    obtain ⟨site, word, rest, right, rfl, named, rfl⟩ := (parse_change_ok _ _ parts c).mp parsed
    exact .deny head site word rest right deny named
  rw [if_neg deny] at parsed
  by_cases snapshot : head.toLower = "snapshot" ∨ head.toLower = "s" ∨ head.toLower = "refresh"
  · rw [if_pos snapshot] at parsed
    exact (Except.ok.inj parsed) ▸ .snapshot head parts (by simpa [snapshotNames] using snapshot)
  · rw [if_neg snapshot] at parsed
    cases parsed

theorem reads_parse_head (head : String) (parts : List String) (c : ClientCommand) (reads : Reads (head :: parts) c) :
    parseHead head.toLower parts = .ok c := by
  cases reads with
  | insert _ pos word rest n ch more name number letters =>
      have parsed := (parse_insert_ok (pos :: word :: rest) (.insert n ch)).mpr
        ⟨pos, word, rest, n, ch, more, rfl, number, letters, rfl⟩
      simp only [insertNames, List.mem_cons, List.not_mem_nil, or_false] at name
      rcases name with name | name <;> simp [parseHead, name, parsed]
  | delete _ pos rest n name number =>
      have parsed := (parse_delete_ok (pos :: rest) (.delete n)).mpr ⟨pos, rest, n, rfl, number, rfl⟩
      simp only [deleteNames, List.mem_cons, List.not_mem_nil, or_false] at name
      rcases name with name | name | name | name <;> simp [parseHead, name, parsed]
  | allow _ site word rest right name named => simp [parseHead, name, parseChange, named]
  | deny _ site word rest right name named => simp [parseHead, name, parseChange, named]
  | snapshot _ rest name =>
      simp only [snapshotNames, List.mem_cons, List.not_mem_nil, or_false] at name
      rcases name with name | name | name <;> simp [parseHead, name]

theorem parse_command_ok (line : String) (c : ClientCommand) :
    parseCommand line = .ok c ↔ Reads (splitWhitespace line) c := by
  rw [parseCommand]
  cases splitWhitespace line with
  | nil => exact ⟨nofun, nofun⟩
  | cons head parts => exact ⟨parse_head_reads head parts c, reads_parse_head head parts c⟩

-- Words that parse_command never looks at: those after a complete command,
-- and all but the first letter of the word to insert.
inductive Overlooked : List String → Prop where
  | insert (head pos word : String) (rest : List String) (n : Nat) (name : head.toLower ∈ insertNames)
      (number : parseUsize pos = some n) (more : word.length ≠ 1 ∨ rest ≠ []) : Overlooked (head :: pos :: word :: rest)
  | delete (head pos : String) (rest : List String) (n : Nat) (name : head.toLower ∈ deleteNames)
      (number : parseUsize pos = some n) (more : rest ≠ []) : Overlooked (head :: pos :: rest)
  | change (head site word : String) (rest : List String) (right : Right) (name : head.toLower ∈ ["allow", "deny"])
      (named : RightName word right) (more : rest ≠ []) : Overlooked (head :: site :: word :: rest)
  | snapshot (head : String) (rest : List String) (name : head.toLower ∈ snapshotNames) (more : rest ≠ []) :
      Overlooked (head :: rest)

theorem denotes_reads (words : List String) (c : ClientCommand) (denotes : Denotes words c) : Reads words c := by
  cases denotes with
  | insert head pos n ch name number => exact .insert head pos _ [] n ch [] name number (by simp)
  | delete head pos n name number => exact .delete head pos [] n name number
  | allow head site word right name named => exact .allow head site word [] right name ((right_parse_iff word right).mpr named)
  | deny head site word right name named => exact .deny head site word [] right name ((right_parse_iff word right).mpr named)
  | snapshot head name => exact .snapshot head [] name

theorem single_letter (word : String) (ch : Char) (more : List Char) (letters : word.toList = ch :: more)
    (single : word.length = 1) : word = String.singleton ch := by
  have count : (ch :: more).length = 1 := by rw [← letters, String.length_toList, single]
  have nothing : more = [] := List.eq_nil_of_length_eq_zero (by simpa using count)
  apply String.toList_injective
  rw [letters, nothing]
  simp

theorem reads_denotes (words : List String) (c : ClientCommand) (reads : Reads words c) (seen : ¬ Overlooked words) :
    Denotes words c := by
  cases reads with
  | insert head pos word rest n ch more name number letters =>
      by_cases left : word.length ≠ 1 ∨ rest ≠ []
      · exact absurd (.insert head pos word rest n name number left) seen
      · obtain ⟨single, rfl⟩ := by simpa using left
        rw [single_letter word ch more letters single]
        exact .insert head pos n ch name number
  | delete head pos rest n name number =>
      by_cases nothing : rest = []
      · exact nothing ▸ .delete head pos n name number
      · exact absurd (.delete head pos rest n name number nothing) seen
  | allow head site word rest right name named =>
      have spelled := (right_parse_iff word right).mp named
      by_cases nothing : rest = []
      · exact nothing ▸ .allow head site word right name spelled
      · exact absurd (.change head site word rest right (by simp [name]) spelled nothing) seen
  | deny head site word rest right name named =>
      have spelled := (right_parse_iff word right).mp named
      by_cases nothing : rest = []
      · exact nothing ▸ .deny head site word right name spelled
      · exact absurd (.change head site word rest right (by simp [name]) spelled nothing) seen
  | snapshot head rest name =>
      by_cases nothing : rest = []
      · exact nothing ▸ .snapshot head name
      · exact absurd (.snapshot head rest name nothing) seen

theorem overlooked_read (words : List String) (plain : ∀ word ∈ words, Word word) (overlooked : Overlooked words) :
    ∃ c, Reads words c ∧ ¬ Denotes words c := by
  cases overlooked with
  | insert head pos word rest n name number more =>
      cases letters : word.toList with
      | nil => exact absurd letters (plain word (by simp)).1
      | cons ch tail =>
          refine ⟨.insert n ch, .insert head pos word rest n ch tail name number letters, ?_⟩
          intro denotes
          cases denotes
          rcases more with long | later
          · exact long (by simp)
          · exact later rfl
  | delete head pos rest n name number more =>
      refine ⟨.delete n, .delete head pos rest n name number, ?_⟩
      intro denotes
      cases denotes
      exact more rfl
  | change head site word rest right name named more =>
      have parsed := (right_parse_iff word right).mpr named
      rcases List.mem_pair.mp name with allow | deny
      · refine ⟨.allow site right, .allow head site word rest right allow parsed, ?_⟩
        intro denotes
        cases denotes
        exact more rfl
      · refine ⟨.deny site right, .deny head site word rest right deny parsed, ?_⟩
        intro denotes
        cases denotes
        exact more rfl
  | snapshot head rest name more =>
      refine ⟨.snapshot, .snapshot head rest name, ?_⟩
      intro denotes
      cases denotes
      exact more rfl

theorem parse_command_exact (line : String) :
    (∀ c, parseCommand line = .ok c ↔ Denotes (splitWhitespace line) c) ↔ ¬ Overlooked (splitWhitespace line) := by
  constructor
  · intro exact_ overlooked
    obtain ⟨c, reads, undenoted⟩ := overlooked_read _ (split_whitespace_words line) overlooked
    exact undenoted ((exact_ c).mp ((parse_command_ok line c).mpr reads))
  · intro seen c
    rw [parse_command_ok]
    exact ⟨fun reads => reads_denotes _ c reads seen, denotes_reads _ c⟩

theorem parse_command_drops : ¬ ∀ (line : String) (c : ClientCommand),
    parseCommand line = .ok c ↔ Denotes (splitWhitespace line) c := by
  intro holds
  have parsed : parseCommand "insert 0 hello" = .ok (.insert 0 'h') := by decide +kernel
  have words : splitWhitespace "insert 0 hello" = ["insert", "0", "hello"] := by decide +kernel
  have denotes := (holds "insert 0 hello" (.insert 0 'h')).mp parsed
  rw [words] at denotes
  generalize spelled : ["insert", "0", "hello"] = given at denotes
  cases denotes with
  | insert head pos n ch name number =>
      have same : "hello" = String.singleton 'h' := by simpa using congrArg (fun w => w.getLast?) spelled
      exact absurd same (by decide +kernel)

def commandNames : List String := insertNames ++ deleteNames ++ ["allow", "deny"] ++ snapshotNames

inductive ErrorFor : List String → ParseError → Prop where
  | empty : ErrorFor [] .empty
  | unknown (head : String) (parts : List String) (unnamed : head.toLower ∉ commandNames) :
      ErrorFor (head :: parts) (.unknown head.toLower)
  | insert (head : String) (parts : List String) (name : head.toLower ∈ insertNames) :
      ErrorFor (head :: parts) (.usage "insert <pos> <char>")
  | delete (head : String) (parts : List String) (name : head.toLower ∈ deleteNames) :
      ErrorFor (head :: parts) (.usage "delete <pos>")
  | allow (head : String) (parts : List String) (name : head.toLower = "allow") (short : parts.length < 2) :
      ErrorFor (head :: parts) (.usage "allow <site> <a|r|w>")
  | deny (head : String) (parts : List String) (name : head.toLower = "deny") (short : parts.length < 2) :
      ErrorFor (head :: parts) (.usage "deny <site> <a|r|w>")
  | right (head site word : String) (rest : List String) (name : head.toLower ∈ ["allow", "deny"])
      (unnamed : ∀ right, ¬ RightName word right) : ErrorFor (head :: site :: word :: rest) (.usage "right must be a|r|w")

theorem parse_pos_error (usage : String) (parts : List String) (e : ParseError) (failed : parsePos usage parts = .error e) :
    e = .usage usage := by
  cases parts with
  | nil => exact (Except.error.inj failed).symm
  | cons word rest =>
      rw [parsePos] at failed
      cases number : parseUsize word with
      | none => simpa [number] using failed.symm
      | some n => simp [number] at failed

theorem parse_insert_error (parts : List String) (e : ParseError) (failed : parseInsert parts = .error e) :
    e = .usage "insert <pos> <char>" := by
  rw [parseInsert] at failed
  split at failed
  · next position => exact parse_pos_error _ parts e (Except.error.inj failed ▸ position)
  · exact (Except.error.inj failed).symm
  · split at failed
    · exact (Except.error.inj failed).symm
    · cases failed

theorem parse_delete_error (parts : List String) (e : ParseError) (failed : parseDelete parts = .error e) :
    e = .usage "delete <pos>" := by
  rw [parseDelete] at failed
  split at failed
  · next position => exact parse_pos_error _ parts e (Except.error.inj failed ▸ position)
  · cases failed

theorem parse_change_error (usage : String) (command : SiteId → Right → ClientCommand) (parts : List String)
    (e : ParseError) (failed : parseChange usage command parts = .error e) :
    (parts.length < 2 ∧ e = .usage usage) ∨ ∃ site word rest, parts = site :: word :: rest ∧
      (∀ right, ¬ RightName word right) ∧ e = .usage "right must be a|r|w" := by
  match parts with
  | [] => exact Or.inl ⟨by simp, (Except.error.inj failed).symm⟩
  | [_] => exact Or.inl ⟨by simp, (Except.error.inj failed).symm⟩
  | site :: word :: rest =>
      rw [parseChange] at failed
      cases named : Right.parse word with
      | none =>
          refine Or.inr ⟨site, word, rest, rfl, ?_, by simpa [named] using failed.symm⟩
          intro right spelled
          exact absurd (named.symm.trans ((right_parse_iff word right).mpr spelled)) (by simp)
      | some right => simp [named] at failed

theorem parse_command_error (line : String) (e : ParseError) (failed : parseCommand line = .error e) :
    ErrorFor (splitWhitespace line) e := by
  rw [parseCommand] at failed
  cases words : splitWhitespace line with
  | nil =>
      rw [words] at failed
      exact (Except.error.inj failed) ▸ .empty
  | cons head parts =>
      simp only [words, parseHead] at failed
      split_ifs at failed with insert delete allow deny snapshot
      · exact parse_insert_error parts e failed ▸ .insert head parts (by simpa [insertNames] using insert)
      · exact parse_delete_error parts e failed ▸ .delete head parts (by simpa [deleteNames] using delete)
      · rcases parse_change_error _ _ parts e failed with ⟨short, rfl⟩ | ⟨site, word, rest, rfl, unnamed, rfl⟩
        · exact .allow head parts allow short
        · exact .right head site word rest (by simp [allow]) unnamed
      · rcases parse_change_error _ _ parts e failed with ⟨short, rfl⟩ | ⟨site, word, rest, rfl, unnamed, rfl⟩
        · exact .deny head parts deny short
        · exact .right head site word rest (by simp [deny]) unnamed
      · refine (Except.error.inj failed) ▸ .unknown head parts ?_
        simp [commandNames, insertNames, deleteNames, snapshotNames] at insert delete snapshot ⊢
        tauto

end Accure
