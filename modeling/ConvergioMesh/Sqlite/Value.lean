import Mathlib.Data.String.Basic
import ConvergioMesh.Json

/-!
# SQLite values

Storage classes, the order and equality SQL compares values by, the collating sequences of texts,
and the affinity conversion of bound text. Texts are valid UTF-8. Conversions between text and floating
point belong to the libraries and are taken as given by an `Engine`.
-/

namespace ConvergioMesh

inductive SqlValue where
  | null
  | integer (i : Int64)
  | real (f : F64)
  | text (s : String)
  | blob (bytes : List UInt8)
  deriving DecidableEq

/-- A value as SQL comparisons see it: an integer and a real of the same size are equal. -/
inductive Key where
  | null
  | number (q : Rat)
  | text (s : String)
  | blob (bytes : List UInt8)
  deriving DecidableEq

def SqlValue.key : SqlValue → Key
  | .null => .null
  | .integer i => .number i.toInt
  | .real f => .number f.toRat
  | .text s => .text s
  | .blob bytes => .blob bytes

/-- `=` of SQL, as far as it is true: NULL equals nothing. -/
def SqlValue.same (v w : SqlValue) : Bool := v.key != .null && v.key == w.key

def Key.rank : Key → Nat
  | .null => 0
  | .number _ => 1
  | .text _ => 2
  | .blob _ => 3

def Key.le : Key → Key → Bool
  | .number p, .number q => p ≤ q
  | .text s, .text t => s ≤ t
  | .blob b, .blob c => b ≤ c
  | k, l => k.rank ≤ l.rank

/-- Names of columns are compared without the case of ASCII letters. -/
def foldCase (s : String) : String := String.ofList (s.toList.map Char.toLower)

/-- The collating sequences built into SQLite. -/
inductive Collation where
  | binary
  | nocase
  | rtrim
  deriving DecidableEq

/-- NOCASE ignores the case of ASCII letters, and of what follows a NUL all but the number of bytes. -/
def Collation.nocaseText (s : String) : String :=
  let rest := s.toList.dropWhile (· ≠ '\x00')
  foldCase (String.ofList (s.toList.takeWhile (· ≠ '\x00'))) ++
    String.ofList (rest.flatMap fun c => List.replicate c.utf8Size '\x00')

/-- The value whose bytes a collation compares. -/
def Collation.fold : Collation → SqlValue → SqlValue
  | .nocase, .text s => .text (nocaseText s)
  | .rtrim, .text s => .text (String.ofList (s.toList.reverse.dropWhile (· = ' ')).reverse)
  | _, v => v

inductive Affinity where
  | text
  | numeric
  | integer
  | real
  | blob
  deriving DecidableEq

/-- What the libraries decide about floats, casts and rowids. -/
structure Engine where
  /-- The text `serde_json` prints for a finite float. -/
  showReal : F64 → String
  /-- The REAL a text denotes when it is a numeric literal. -/
  readReal : String → Option F64
  /-- The float `serde_json` reads back from the text it prints, which may be a neighbouring one. -/
  wireReal : F64 → F64
  ofInt : Int64 → F64
  castText : SqlValue → String
  /-- The rowid tried at random once the largest rowid is taken. -/
  pickRowid : List Key → Option Int64

def isSqlSpace (c : Char) : Bool :=
  c = ' ' || c = '\t' || c = '\n' || c = '\x0b' || c = '\x0c' || c = '\r'

def trimSpaces (cs : List Char) : List Char :=
  ((cs.dropWhile isSqlSpace).reverse.dropWhile isSqlSpace).reverse

def digitsValue (cs : List Char) : Option Int :=
  if cs ≠ [] ∧ cs.all Char.isDigit then some (Nat.ofDigitChars 10 cs 0 : Nat) else none

def signedDigits : List Char → Option Int
  | '-' :: cs => (digitsValue cs).map (-·)
  | '+' :: cs => digitsValue cs
  | cs => digitsValue cs

def toInt64? (i : Int) : Option Int64 := if -2 ^ 63 ≤ i ∧ i < 2 ^ 63 then some (.ofInt i) else none

/-- The integer a text denotes when it is an integer literal, possibly signed and padded. -/
def integerLiteral (s : String) : Option Int := signedDigits (trimSpaces s.toList)

def int64Literal (s : String) : Option Int64 := (integerLiteral s).bind toInt64?

/-- NUMERIC conversion of a text: an integer if lossless, else a REAL, else the text itself. -/
def numericValue (e : Engine) (s : String) : SqlValue :=
  match int64Literal s with
  | some i => .integer i
  | none =>
    match e.readReal s with
    | some f => f.toInt64?.elim (.real f) .integer
    | none => .text s

/-- What a column of this affinity stores for a bound text. -/
def Affinity.store (e : Engine) : Affinity → String → SqlValue
  | .text, s | .blob, s => .text s
  | .numeric, s | .integer, s => numericValue e s
  | .real, s =>
    match int64Literal s with
    | some i => .real (e.ofInt i)
    | none => (e.readReal s).elim (.text s) fun f => .real f.dropMinusZero

/-- A bound parameter as it is compared with a column of this affinity. -/
def Affinity.operand (e : Engine) : Affinity → SqlValue → SqlValue
  | .text, .integer i => .text (toString i.toInt)
  | .text, .real f => .text (e.castText (.real f))
  | .numeric, .text s | .integer, .text s | .real, .text s => numericValue e s
  | _, v => v

/-- The text SQL functions see; NULL has none. -/
def SqlValue.asText (e : Engine) : SqlValue → Option String
  | .null => none
  | .integer i => some (toString i.toInt)
  | .text s => some s
  | v => some (e.castText v)

/-- `s.replace('T', " ")`, and `REPLACE(s, 'T', ' ')` of SQL. -/
def replaceT (s : String) : String :=
  String.ofList (s.toList.map fun c => if c = 'T' then ' ' else c)

theorem mapT_of_free {cs : List Char} (free : 'T' ∉ cs) : (cs.map fun c => if c = 'T' then ' ' else c) = cs := by
  have same : (cs.map fun c => if c = 'T' then ' ' else c) = cs.map id := by
    refine List.map_congr_left fun c member => if_neg ?_
    rintro rfl
    exact free member
  rw [same, List.map_id]

theorem replaceT_of_free {s : String} (free : 'T' ∉ s.toList) : replaceT s = s := by
  rw [replaceT, mapT_of_free free, String.ofList_toList]

/-! ### Comparison -/

@[simp] theorem SqlValue.key_eq_null {v : SqlValue} : v.key = .null ↔ v = .null := by
  cases v <;> simp [SqlValue.key]

theorem SqlValue.same_iff {v w : SqlValue} : v.same w = true ↔ v ≠ .null ∧ v.key = w.key := by
  simp [SqlValue.same]

theorem SqlValue.same_symm {v w : SqlValue} (h : v.same w = true) : w.same v = true := by
  rw [same_iff] at h ⊢
  refine ⟨fun null => h.1 ?_, h.2.symm⟩
  rw [← key_eq_null, h.2, null]
  rfl

@[simp] theorem Collation.fold_binary (v : SqlValue) : Collation.binary.fold v = v := by
  cases v <;> rfl

@[simp] theorem Collation.fold_eq_null {c : Collation} {v : SqlValue} : c.fold v = .null ↔ v = .null := by
  cases c <;> cases v <;> simp [fold]

theorem Collation.key_fold {c : Collation} {v w : SqlValue} (same : v.key = w.key) : (c.fold v).key = (c.fold w).key := by
  cases v with
  | text s =>
    cases w with
    | text u => rw [Key.text.inj same]
    | null | integer | real | blob => cases same
  | null | integer | real | blob =>
    cases w with
    | text => cases same
    | null | integer | real | blob => cases c <;> exact same

theorem SqlValue.same_trans {u v w : SqlValue} (first : u.same v = true) (second : v.same w = true) :
    u.same w = true := by
  rw [same_iff] at *
  exact ⟨first.1, first.2.trans second.2⟩

/-! ### Integers through text -/

theorem isDigit_not_space {c : Char} (h : c.isDigit = true) : isSqlSpace c = false := by
  simp only [isSqlSpace, Bool.or_eq_false_iff, decide_eq_false_iff_not]
  refine ⟨⟨⟨⟨⟨?_, ?_⟩, ?_⟩, ?_⟩, ?_⟩, ?_⟩ <;> rintro rfl <;> exact absurd h (by decide)

theorem trimSpaces_of_not_space {cs : List Char} (h : ∀ c ∈ cs, isSqlSpace c = false) :
    trimSpaces cs = cs := by
  have keep : ∀ l : List Char, (∀ c ∈ l, isSqlSpace c = false) → l.dropWhile isSqlSpace = l := by
    intro l clean
    cases l with
    | nil => rfl
    | cons c rest => rw [List.dropWhile_cons_of_neg (by simp [clean c List.mem_cons_self])]
  unfold trimSpaces
  rw [keep cs h, keep _ (fun c member => h c (List.mem_reverse.mp member)), List.reverse_reverse]

theorem digitsValue_toDigits (n : Nat) : digitsValue (Nat.toDigits 10 n) = some (n : Int) := by
  have digits : (Nat.toDigits 10 n).all Char.isDigit = true :=
    List.all_eq_true.mpr fun c member => Nat.isDigit_of_mem_toDigits (by decide) (by decide) member
  rw [digitsValue, if_pos ⟨Nat.toDigits_ne_nil, digits⟩, Nat.ofDigitChars_ten_toDigits]

theorem digitsValue_some {cs : List Char} {n : Int} (value : digitsValue cs = some n) :
    cs ≠ [] ∧ ∀ c ∈ cs, c.isDigit = true := by
  unfold digitsValue at value
  split at value
  · rename_i digits
    exact ⟨digits.1, List.all_eq_true.mp digits.2⟩
  · cases value

theorem isDigit_of_mem_toString (n : Nat) : ∀ c ∈ (toString n).toList, c.isDigit = true := by
  intro c member
  have text : (toString n).toList = Nat.toDigits 10 n := Nat.toList_repr
  exact Nat.isDigit_of_mem_toDigits (by decide) (by decide) (text ▸ member)

theorem signedDigits_nat (n : Nat) : signedDigits (toString n).toList = some (n : Int) := by
  have text : (toString n).toList = Nat.toDigits 10 n := Nat.toList_repr
  have digit := isDigit_of_mem_toString n
  unfold signedDigits
  split
  · rename_i cs shape
    exact absurd (digit '-' (shape ▸ List.mem_cons_self)) (by decide)
  · rename_i cs shape
    exact absurd (digit '+' (shape ▸ List.mem_cons_self)) (by decide)
  · rw [text]
    exact digitsValue_toDigits n

theorem toList_negSucc (n : Nat) : (toString (Int.negSucc n)).toList = '-' :: Nat.toDigits 10 (n + 1) := by
  change ("-" ++ toString (n + 1)).toList = _
  rw [String.toList_append, show (toString (n + 1)).toList = Nat.toDigits 10 (n + 1) from Nat.toList_repr]
  rfl

theorem signedDigits_int (i : Int) : signedDigits (toString i).toList = some i := by
  cases i with
  | ofNat n => exact signedDigits_nat n
  | negSucc n =>
    rw [toList_negSucc]
    simp only [signedDigits, digitsValue_toDigits, Option.map_some]
    rfl

theorem space_not_mem_int (i : Int) : ∀ c ∈ (toString i).toList, isSqlSpace c = false := by
  have digits (n : Nat) : ∀ c ∈ Nat.toDigits 10 n, isSqlSpace c = false :=
    fun c member => isDigit_not_space (Nat.isDigit_of_mem_toDigits (by decide) (by decide) member)
  cases i with
  | ofNat n =>
    intro c member
    rw [show (toString (Int.ofNat n)).toList = Nat.toDigits 10 n from Nat.toList_repr] at member
    exact digits n c member
  | negSucc n =>
    rw [toList_negSucc]
    intro c member
    rcases List.mem_cons.mp member with rfl | member
    · decide
    · exact digits (n + 1) c member

theorem integerLiteral_int (i : Int) : integerLiteral (toString i) = some i := by
  rw [integerLiteral, trimSpaces_of_not_space (space_not_mem_int i), signedDigits_int]

theorem toInt64?_toInt (i : Int64) : toInt64? i.toInt = some i := by
  rw [toInt64?, if_pos ⟨i.le_toInt, i.toInt_lt⟩, Int64.ofInt_toInt]

theorem int64Literal_toString (i : Int64) : int64Literal (toString i.toInt) = some i := by
  rw [int64Literal, integerLiteral_int, Option.bind_some, toInt64?_toInt]

@[simp] theorem numericValue_toString (e : Engine) (i : Int64) :
    numericValue e (toString i.toInt) = .integer i := by
  rw [numericValue, int64Literal_toString]

theorem numericValue_text {e : Engine} {s : String} (h : int64Literal s = none ∧ e.readReal s = none) :
    numericValue e s = .text s := by
  rw [numericValue, h.1, h.2]

/-! ### Bound text is never stored as NULL or BLOB -/

/-- The storage classes a bound text can end up in. -/
def SqlValue.Plain : SqlValue → Prop
  | .null | .blob _ => False
  | _ => True

theorem numericValue_plain (e : Engine) (s : String) : (numericValue e s).Plain := by
  unfold numericValue
  split
  · trivial
  · split
    · rename_i f _
      cases f.toInt64? <;> trivial
    · trivial

theorem Affinity.store_plain (e : Engine) (a : Affinity) (s : String) : (a.store e s).Plain := by
  cases a with
  | text | blob => trivial
  | numeric | integer => exact numericValue_plain e s
  | real =>
    simp only [Affinity.store]
    split
    · trivial
    · cases e.readReal s <;> trivial

theorem SqlValue.Plain.ne_null {v : SqlValue} (h : v.Plain) : v ≠ .null := by
  rintro rfl
  exact h

end ConvergioMesh
