import LLOne.Text.Words

/-!
# Messages for syntax errors

A table of messages by non-terminal and offending token. The last message written for a
pair counts; the token `?` of a non-terminal stands for every token without a message of
its own. In text form each line has a non-terminal, a token, a bar and the words of the
message; lines of any other form have no effect. The table has one entry for each pair, where
it could also be a table of tables: the same is found in both, and they are of the same size.
-/

namespace LLOne

structure MessageTable where
  /-- The messages by non-terminal and token, no pair of which occurs twice. -/
  entries : List ((String × String) × String)
deriving DecidableEq, Repr

namespace MessageTable

instance : EmptyCollection MessageTable := ⟨⟨[]⟩⟩

def anyToken : String := "?"

/-- Writes a value under a key, in the place of the one that was there. -/
def put {α β : Type} [BEq α] (key : α) (value : β) (entries : List (α × β)) : List (α × β) :=
  (key, value) :: entries.filter (·.1 != key)

theorem lookup_put {α β : Type} [BEq α] [LawfulBEq α] [DecidableEq α] (key : α) (value : β)
    (entries : List (α × β)) (k : α) :
    (put key value entries).lookup k = if k = key then some value else entries.lookup k := by
  by_cases h : k = key
  · rw [if_pos h, put, List.lookup_cons, beq_iff_eq.2 h]
  · rw [if_neg h, put, List.lookup_cons, beq_eq_false_iff_ne.2 h]
    induction entries with
    | nil => rfl
    | cons entry rest ih => grind

def insert (t : MessageTable) (nonTerminal token message : String) : MessageTable :=
  ⟨put (nonTerminal, token) message t.entries⟩

def get? (t : MessageTable) (nonTerminal token : String) : Option String :=
  t.entries.lookup (nonTerminal, token)

theorem get?_insert (t : MessageTable) (a x message b y : String) :
    (t.insert a x message).get? b y = if (b, y) = (a, x) then some message else t.get? b y :=
  lookup_put _ _ _ _

def lookup (t : MessageTable) (nonTerminal token : String) : Option String :=
  (t.get? nonTerminal token).or (t.get? nonTerminal anyToken)

def size (t : MessageTable) : Nat := t.entries.length

def isEmpty (t : MessageTable) : Bool := t.size == 0

def entryOf? (line : String) : Option ((String × String) × String) :=
  match Text.words line with
  | nonTerminal :: token :: bar :: word :: words =>
    if bar = "|" then some ((nonTerminal, token), " ".intercalate (word :: words)) else none
  | _ => none

def insertLine (t : MessageTable) (line : String) : MessageTable :=
  match entryOf? line with
  | some ((nonTerminal, token), message) => t.insert nonTerminal token message
  | none => t

def load (lines : List String) : MessageTable := lines.foldl insertLine ∅

def parse (text : String) : MessageTable := load (Text.lines text)

def skippedLines (lines : List String) : List (String × Nat) :=
  (lines.zipIdx 1).filter fun (line, _) =>
    !(Text.words line).isEmpty && (entryOf? line).isNone

end MessageTable

end LLOne
