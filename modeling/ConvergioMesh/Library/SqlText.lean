import Mathlib.Data.List.Basic

/-!
# The tokens of a statement

A scanner for statements without string literals and comments: words, names in double quotes,
numbered parameters and single marks. A text is scanned piece by piece, so a statement that is put
together from pieces has the tokens of its pieces.
-/

namespace ConvergioMesh.Library

inductive SqlToken where
  | word (w : List Char)
  | quoted (name : List Char)
  | parameter (digits : List Char)
  | mark (c : Char)
  deriving DecidableEq

inductive SqlScan where
  | idle
  | word (w : List Char)
  | quoted (name : List Char)
  /-- A quote that ends the name, unless another one follows. -/
  | closing (name : List Char)
  | parameter (digits : List Char)
  deriving DecidableEq

def isWordChar (c : Char) : Bool := c.isAlphanum || c = '_' || c = '$' || 128 ≤ c.toNat

namespace SqlScan

def start (c : Char) : List SqlToken × SqlScan :=
  if c = '"' then ([], quoted [])
  else if c = '?' then ([], parameter [])
  else if isWordChar c then ([], word [c])
  else if c = ' ' then ([], idle)
  else ([.mark c], idle)

/-- What is emitted where the text ends; a name that is not closed is dropped. -/
def finish : SqlScan → List SqlToken
  | idle | quoted _ => []
  | word w => [.word w]
  | closing name => [.quoted name]
  | parameter digits => [.parameter digits]

/-- The character that is read ends the token before it. -/
def restart (s : SqlScan) (c : Char) : List SqlToken × SqlScan := (s.finish ++ (start c).1, (start c).2)

def step (s : SqlScan) (c : Char) : List SqlToken × SqlScan :=
  match s with
  | idle => start c
  | word w => if isWordChar c then ([], word (w ++ [c])) else (word w).restart c
  | quoted name => if c = '"' then ([], closing name) else ([], quoted (name ++ [c]))
  | closing name => if c = '"' then ([], quoted (name ++ ['"'])) else (closing name).restart c
  | parameter digits => if c.isDigit then ([], parameter (digits ++ [c])) else (parameter digits).restart c

def run : SqlScan → List Char → List SqlToken × SqlScan
  | s, [] => ([], s)
  | s, c :: rest => ((s.step c).1 ++ (run (s.step c).2 rest).1, (run (s.step c).2 rest).2)

theorem run_append (s : SqlScan) (a b : List Char) :
    s.run (a ++ b) = ((s.run a).1 ++ ((s.run a).2.run b).1, ((s.run a).2.run b).2) := by
  induction a generalizing s with
  | nil => rfl
  | cons c a ih => rw [List.cons_append, run, ih, run, List.append_assoc]

/-- Two pieces, given what each of them does. -/
theorem run_pieces {s s' s'' : SqlScan} {a b : List Char} {ts ts' : List SqlToken} (first : s.run a = (ts, s'))
    (second : s'.run b = (ts', s'')) : s.run (a ++ b) = (ts ++ ts', s'') := by
  rw [run_append, first]
  dsimp only
  rw [second]

theorem run_name (before name : List Char) (plain : '"' ∉ name) : (quoted before).run name = ([], quoted (before ++ name)) := by
  induction name generalizing before with
  | nil => rw [List.append_nil]; rfl
  | cons c name ih =>
    rw [List.mem_cons, not_or] at plain
    have kept : (quoted before).step c = ([], quoted (before ++ [c])) := if_neg (Ne.symm plain.1)
    rw [run, kept, ih _ plain.2]
    simp

theorem run_quoted {name : List Char} (plain : '"' ∉ name) : idle.run ('"' :: (name ++ ['"'])) = ([], closing name) := by
  have opened : idle.run ['"'] = ([], quoted []) := rfl
  have closed : (quoted name).run ['"'] = ([], closing name) := rfl
  exact run_pieces opened (run_pieces (run_name [] name plain) closed)

theorem run_digits (before digits : List Char) (numeric : ∀ c ∈ digits, c.isDigit = true) :
    (parameter before).run digits = ([], parameter (before ++ digits)) := by
  induction digits generalizing before with
  | nil => rw [List.append_nil]; rfl
  | cons c digits ih =>
    have kept : (parameter before).step c = ([], parameter (before ++ [c])) := if_pos (numeric c List.mem_cons_self)
    rw [run, kept, ih _ fun d later => numeric d (List.mem_cons_of_mem _ later)]
    simp

theorem run_parameter {digits : List Char} (numeric : ∀ c ∈ digits, c.isDigit = true) :
    idle.run ('?' :: digits) = ([], parameter digits) := by
  have opened : idle.run ['?'] = ([], parameter []) := rfl
  exact run_pieces opened (run_digits [] digits numeric)

end SqlScan

def sqlTokens (text : List Char) : List SqlToken := (SqlScan.idle.run text).1 ++ (SqlScan.idle.run text).2.finish

theorem sqlTokens_of_run {text : List Char} {ts : List SqlToken} {s : SqlScan} (h : SqlScan.idle.run text = (ts, s)) :
    sqlTokens text = ts ++ s.finish := by
  rw [sqlTokens, h]

/-! ### Lists with commas -/

/-- An item stands for one token, whether a comma or a closing parenthesis follows. -/
def StandsFor (text : List Char) (t : SqlToken) : Prop :=
  ∀ c, c = ',' ∨ c = ')' → SqlScan.idle.run (text ++ [c]) = ([t, .mark c], .idle)

theorem standsFor_quoted {name : List Char} (plain : '"' ∉ name) : StandsFor ('"' :: (name ++ ['"'])) (.quoted name) := by
  rintro c (rfl | rfl)
  · exact SqlScan.run_pieces (SqlScan.run_quoted plain) rfl
  · exact SqlScan.run_pieces (SqlScan.run_quoted plain) rfl

theorem standsFor_parameter {digits : List Char} (numeric : ∀ c ∈ digits, c.isDigit = true) :
    StandsFor ('?' :: digits) (.parameter digits) := by
  rintro c (rfl | rfl)
  · exact SqlScan.run_pieces (SqlScan.run_parameter numeric) rfl
  · exact SqlScan.run_pieces (SqlScan.run_parameter numeric) rfl

/-- A list in parentheses has the tokens of its items. -/
theorem run_list {α : Type} {text : α → List Char} {token : α → SqlToken} {items : List α}
    (each : ∀ a ∈ items, StandsFor (text a) (token a)) (nonempty : items ≠ []) :
    SqlScan.idle.run ([',', ' '].intercalate (items.map text) ++ [')']) =
      ((items.map token).intersperse (.mark ',') ++ [.mark ')'], .idle) := by
  induction items with
  | nil => exact absurd rfl nonempty
  | cons a items ih =>
    cases items with
    | nil => simpa using each a List.mem_cons_self ')' (.inr rfl)
    | cons b rest =>
      have later := ih (fun a' member => each a' (List.mem_cons_of_mem _ member)) (List.cons_ne_nil _ _)
      have first := each a List.mem_cons_self ',' (.inl rfl)
      have space : SqlScan.idle.run [' '] = ([], .idle) := rfl
      have whole := SqlScan.run_pieces first (SqlScan.run_pieces space later)
      simpa [List.intercalate_cons_cons] using whole

theorem filterMap_intersperse {α β : Type} (f : α → Option β) (sep : α) (none : f sep = none) (l : List α) :
    (l.intersperse sep).filterMap f = l.filterMap f := by
  induction l with
  | nil => rfl
  | cons a l ih =>
    cases l with
    | nil => rfl
    | cons b rest =>
      rw [List.intersperse_cons_cons, List.filterMap_cons, List.filterMap_cons_none none, ih, ← List.filterMap_cons]

end ConvergioMesh.Library
