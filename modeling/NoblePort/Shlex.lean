import Mathlib.Data.List.Basic
import Mathlib.Tactic.SplitIfs

/-!
# Splitting a command line

The POSIX mode of `shlex.split`: one character after another, in or outside
quotes, with `\` as the escape. It fails at the end of a text that leaves a quote
open or an escape unfinished.
-/
namespace Shlex

/-- The lexer's `state`; an escape goes back to a word, or into the quotes it stands in. -/
inductive Mode where
  | blank
  | word
  | quote (q : Char)
  | escape (back : Option Char)
  deriving DecidableEq, Repr

structure Lexer where
  mode : Mode
  token : List Char
  quoted : Bool

def start : Lexer := ⟨.blank, [], false⟩

def isWhitespace (c : Char) : Bool := c = ' ' ∨ c = '\t' ∨ c = '\r' ∨ c = '\n'

def isQuote (c : Char) : Bool := c = '\'' ∨ c = '"'

/-- A token is over: an empty one counts only if it was quoted. -/
def Lexer.emit (l : Lexer) : Option (List Char) := if l.token ≠ [] ∨ l.quoted then some l.token else none

/-- Read one character; the second component is a token that ends with it. -/
def Lexer.read (l : Lexer) (c : Char) : Lexer × Option (List Char) :=
  match l.mode with
  | .blank =>
    if isWhitespace c then (start, l.emit)
    else if c = '\\' then ({ l with mode := .escape none }, none)
    else if isQuote c then ({ l with mode := .quote c }, none)
    else ({ l with mode := .word, token := [c] }, none)
  | .quote q =>
    if c = q then ({ l with mode := .word, quoted := true }, none)
    else if c = '\\' ∧ q = '"' then ({ l with mode := .escape (some q), quoted := true }, none)
    else ({ l with token := l.token ++ [c], quoted := true }, none)
  | .escape none => ({ l with mode := .word, token := l.token ++ [c] }, none)
  | .escape (some q) =>
    -- within quotes only the quote and the escape themselves are escaped
    let kept := if c ≠ '\\' ∧ c ≠ q then ['\\'] else []
    ({ l with mode := .quote q, token := l.token ++ kept ++ [c] }, none)
  | .word =>
    if isWhitespace c then (start, l.emit)
    else if isQuote c then ({ l with mode := .quote c }, none)
    else if c = '\\' then ({ l with mode := .escape none }, none)
    else ({ l with token := l.token ++ [c] }, none)

def Lexer.finish (l : Lexer) : Except String (Option (List Char)) :=
  match l.mode with
  | .quote _ => .error "No closing quotation"
  | .escape _ => .error "No escaped character"
  | .blank | .word => .ok l.emit

def Lexer.tokens : Lexer → List Char → Except String (List String)
  | l, [] => l.finish.map fun token => (token.map String.ofList).toList
  | l, c :: cs =>
    match l.read c with
    | (l', none) => l'.tokens cs
    | (l', some token) => (l'.tokens cs).map fun rest => String.ofList token :: rest

def split (s : String) : Except String (List String) := start.tokens s.toList

/-- How one character changes the state. -/
def Mode.next : Mode → Char → Mode
  | .blank, c =>
    if isWhitespace c then .blank else if c = '\\' then .escape none
    else if isQuote c then .quote c else .word
  | .word, c =>
    if isWhitespace c then .blank else if isQuote c then .quote c
    else if c = '\\' then .escape none else .word
  | .quote q, c => if c = q then .word else if c = '\\' ∧ q = '"' then .escape (some q) else .quote q
  | .escape none, _ => .word
  | .escape (some q), _ => .quote q

def Mode.between : Mode → Bool
  | .blank | .word => true
  | .quote _ | .escape _ => false

/-- The text leaves no quote open and no escape unfinished. -/
def closed (s : String) : Bool := (s.toList.foldl Mode.next .blank).between

theorem read_mode (l : Lexer) (c : Char) : (l.read c).1.mode = l.mode.next c := by
  unfold Lexer.read
  cases hmode : l.mode with
  | blank =>
    simp only [Mode.next]
    split_ifs <;> rfl
  | word =>
    simp only [Mode.next]
    split_ifs <;> rfl
  | quote q =>
    simp only [Mode.next]
    split_ifs <;> rfl
  | escape back => cases back <;> rfl

theorem finish_ok (l : Lexer) : (∃ token, l.finish = .ok token) ↔ l.mode.between = true := by
  cases hmode : l.mode <;> simp [Lexer.finish, Mode.between, hmode]

theorem tokens_ok (l : Lexer) (cs : List Char) :
    (∃ argv, l.tokens cs = .ok argv) ↔ (cs.foldl Mode.next l.mode).between = true := by
  have hmap {α β : Type} (r : Except String α) (f : α → β) :
      (∃ b, r.map f = .ok b) ↔ ∃ a, r = .ok a := by
    cases r <;> simp [Except.map]
  induction cs generalizing l with
  | nil => rw [Lexer.tokens, hmap, finish_ok, List.foldl_nil]
  | cons c cs ih =>
    rw [List.foldl_cons, ← read_mode, Lexer.tokens]
    rcases l.read c with ⟨l', none | token⟩
    · exact ih l'
    · exact (hmap _ _).trans (ih l')

/-- A text is split exactly if it is closed. -/
theorem split_ok (s : String) : (∃ argv, split s = .ok argv) ↔ closed s = true :=
  tokens_ok start s.toList

example : split "pytest -q 'a b'\"c\\\"\" \\;" = .ok ["pytest", "-q", "a bc\"", ";"] := by decide

end Shlex
