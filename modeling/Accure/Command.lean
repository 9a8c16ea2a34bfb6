import Accure.Op
import Mathlib.Data.List.Basic

set_option autoImplicit false

namespace Accure

inductive ClientCommand where
  | insert (pos : Nat) (ch : Char)
  | delete (pos : Nat)
  | allow (target : SiteId) (right : Right)
  | deny (target : SiteId) (right : Right)
  | snapshot
  | subscribe
deriving DecidableEq, Repr

inductive ParseError where
  | empty
  | unknown (s : String)
  | usage (u : String)
deriving DecidableEq, Repr

def ParseError.display : ParseError → String
  | .empty => "empty command"
  | .unknown s => "unknown command: " ++ s
  | .usage u => "usage: " ++ u

-- char::is_whitespace, the property White_Space of Unicode.
def isWhitespace (c : Char) : Bool :=
  let n := c.toNat
  (9 ≤ n && n ≤ 13) || n = 0x20 || n = 0x85 || n = 0xA0 || n = 0x1680 || (0x2000 ≤ n && n ≤ 0x200A) ||
    n = 0x2028 || n = 0x2029 || n = 0x202F || n = 0x205F || n = 0x3000

def splitWhitespace (line : String) : List String :=
  ((line.toList.splitOnP isWhitespace).filter (fun word => !word.isEmpty)).map String.ofList

def usizeLimit : Nat := 2 ^ 64

def pushDigit (value : Nat) (c : Char) : Option Nat :=
  if c.isDigit then
    let next := value * 10 + (c.toNat - '0'.toNat)
    if next < usizeLimit then some next else none
  else none

-- str::parse of a usize: one plus sign may stand before the digits.
def parseUsize (word : String) : Option Nat :=
  let digits := match word.toList with
    | '+' :: rest => rest
    | whole => whole
  if digits.isEmpty then none else digits.foldlM pushDigit 0

def Right.parse (s : String) : Option Right :=
  let word := s.toLower
  if word = "a" ∨ word = "admin" then some .admin
  else if word = "w" ∨ word = "write" then some .write
  else if word = "r" ∨ word = "read" then some .read
  else none

def parsePos (usage : String) : List String → Except ParseError (Nat × List String)
  | [] => .error (.usage usage)
  | word :: parts =>
      match parseUsize word with
      | none => .error (.usage usage)
      | some pos => .ok (pos, parts)

def parseInsert (parts : List String) : Except ParseError ClientCommand :=
  match parsePos "insert <pos> <char>" parts with
  | .error e => .error e
  | .ok (_, []) => .error (.usage "insert <pos> <char>")
  | .ok (pos, chStr :: _) =>
      match chStr.toList.head? with
      | none => .error (.usage "insert <pos> <char>")
      | some ch => .ok (.insert pos ch)

def parseDelete (parts : List String) : Except ParseError ClientCommand :=
  match parsePos "delete <pos>" parts with
  | .error e => .error e
  | .ok (pos, _) => .ok (.delete pos)

def parseChange (usage : String) (command : SiteId → Right → ClientCommand) :
    List String → Except ParseError ClientCommand
  | [] => .error (.usage usage)
  | [_] => .error (.usage usage)
  | target :: word :: _ =>
      match Right.parse word with
      | none => .error (.usage "right must be a|r|w")
      | some right => .ok (command target right)

def parseHead (head : String) (parts : List String) : Except ParseError ClientCommand :=
  if head = "insert" ∨ head = "i" then parseInsert parts
  else if head = "delete" ∨ head = "del" ∨ head = "d" ∨ head = "x" then parseDelete parts
  else if head = "allow" then parseChange "allow <site> <a|r|w>" .allow parts
  else if head = "deny" then parseChange "deny <site> <a|r|w>" .deny parts
  else if head = "snapshot" ∨ head = "s" ∨ head = "refresh" then .ok .snapshot
  else .error (.unknown head)

def parseCommand (line : String) : Except ParseError ClientCommand :=
  match splitWhitespace line with
  | [] => .error .empty
  | head :: parts => parseHead head.toLower parts

theorem word_nonempty (line word : String) (member : word ∈ splitWhitespace line) : word.toList ≠ [] := by
  rw [splitWhitespace, List.mem_map] at member
  obtain ⟨letters, kept, rfl⟩ := member
  have nonempty := (List.mem_filter.mp kept).2
  simpa using nonempty

theorem pieces_plain (letters piece : List Char) (member : piece ∈ letters.splitOnP isWhitespace) :
    ∀ c ∈ piece, isWhitespace c = false := by
  induction letters generalizing piece with
  | nil => simp_all
  | cons c tail ih =>
      rw [List.splitOnP_cons_eq_if_modifyHead] at member
      by_cases blank : isWhitespace c = true
      · rw [if_pos blank, List.mem_cons] at member
        rcases member with rfl | later
        · simp
        · exact ih piece later
      · obtain ⟨first, rest, pieces⟩ := List.exists_cons_of_ne_nil (List.splitOnP_ne_nil isWhitespace tail)
        rw [if_neg blank, pieces, List.modifyHead_cons, List.mem_cons] at member
        rcases member with rfl | later
        · intro x inside
          rcases List.mem_cons.mp inside with rfl | inTail
          · simpa using blank
          · exact ih first (pieces ▸ List.mem_cons_self) x inTail
        · exact ih piece (pieces ▸ List.mem_cons_of_mem first later)

def Word (word : String) : Prop := word.toList ≠ [] ∧ ∀ c ∈ word.toList, isWhitespace c = false

theorem split_whitespace_words (line word : String) (member : word ∈ splitWhitespace line) : Word word := by
  refine ⟨word_nonempty line word member, ?_⟩
  rw [splitWhitespace, List.mem_map] at member
  obtain ⟨letters, kept, rfl⟩ := member
  rw [String.toList_ofList]
  exact pieces_plain line.toList letters (List.mem_filter.mp kept).1

theorem split_whitespace_join (words : List String) (plain : ∀ word ∈ words, Word word) :
    splitWhitespace (" ".intercalate words) = words := by
  induction words with
  | nil => decide +kernel
  | cons word rest ih =>
      have single : (word.toList.splitOnP isWhitespace).filter (fun w => !w.isEmpty) = [word.toList] := by
        rw [List.splitOnP_eq_singleton (plain word (by simp)).2]
        simp [(plain word (by simp)).1]
      cases rest with
      | nil => simp [splitWhitespace, single]
      | cons next tail =>
          have joined := ih (fun w member => plain w (List.mem_cons_of_mem word member))
          rw [splitWhitespace] at joined
          have letters : (" ".intercalate (word :: next :: tail)).toList =
              word.toList ++ ' ' :: (" ".intercalate (next :: tail)).toList := by
            simp [String.intercalate_cons_cons]
          rw [splitWhitespace, letters, List.splitOnP_append_cons _ _ (by decide), List.filter_append,
            List.map_append, joined, single]
          simp

end Accure
