import Mathlib.Algebra.Order.Field.Rat

/-! JSON values as `serde_json` represents and prints them. -/

namespace ConvergioMesh

/-- A 64-bit float, by its bit pattern. -/
structure F64 where
  bits : UInt64
  deriving DecidableEq

def F64.exponent (f : F64) : Nat := f.bits.toNat / 2 ^ 52 % 2 ^ 11

def F64.isFinite (f : F64) : Bool := f.exponent != 2047

def F64.toRat (f : F64) : Rat :=
  let fraction : Nat := f.bits.toNat % 2 ^ 52
  let magnitude : Rat :=
    if f.exponent = 0 then (fraction : Rat) * 2 ^ (-1074 : Int)
    else ((2 ^ 52 + fraction : Nat) : Rat) * 2 ^ ((f.exponent : Int) - 1075)
  if f.bits.toNat < 2 ^ 63 then magnitude else -magnitude

/-- The integer SQLite keeps in place of a REAL; the smallest one is left out. -/
def F64.toInt64? (f : F64) : Option Int64 :=
  let q := f.toRat
  if q.den = 1 ∧ -2 ^ 63 < q.num ∧ q.num < 2 ^ 63 then some (.ofInt q.num) else none

/-- A REAL column keeps no minus zero. -/
def F64.dropMinusZero (f : F64) : F64 := if f.bits.toNat = 2 ^ 63 then ⟨0⟩ else f

inductive Number where
  | posInt (n : UInt64)
  | negInt (i : Int64)
  | float (f : F64)
  deriving DecidableEq

/-- `json!` of an `i64`. -/
def Number.ofInt64 (i : Int64) : Number :=
  if 0 ≤ i.toInt then .posInt (.ofNat i.toInt.toNat) else .negInt i

def Number.asI64 : Number → Option Int64
  | .posInt n => if n.toNat < 2 ^ 63 then some (.ofInt n.toNat) else none
  | .negInt i => some i
  | .float _ => none

def Number.toRat : Number → Rat
  | .posInt n => n.toNat
  | .negInt i => i.toInt
  | .float f => f.toRat

/-- An object is the list of its entries in the order the map iterates them. -/
inductive Json where
  | null
  | bool (b : Bool)
  | number (n : Number)
  | string (s : String)
  | array (items : List Json)
  | object (entries : List (String × Json))

namespace Json

def asStr : Json → Option String
  | .string s => some s
  | _ => none

def asObject : Json → Option (List (String × Json))
  | .object entries => some entries
  | _ => none

def hexDigit (n : Nat) : Char := (Nat.toDigits 16 (n % 16)).headD '0'

def escapeChar (c : Char) : List Char :=
  if c = '"' then ['\\', '"']
  else if c = '\\' then ['\\', '\\']
  else if c = '\n' then ['\\', 'n']
  else if c = '\r' then ['\\', 'r']
  else if c = '\t' then ['\\', 't']
  else if c = '\x08' then ['\\', 'b']
  else if c = '\x0c' then ['\\', 'f']
  else if c.toNat < 32 then ['\\', 'u', '0', '0', hexDigit (c.toNat / 16), hexDigit c.toNat]
  else [c]

def quote (s : String) : String := "\"" ++ String.ofList (s.toList.flatMap escapeChar) ++ "\""

def printNumber (showReal : F64 → String) : Number → String
  | .posInt n => toString n.toNat
  | .negInt i => toString i.toInt
  | .float f => showReal f

mutual

/-- `to_string` of a value, given the text of a finite float. -/
def print (showReal : F64 → String) : Json → String
  | .null => "null"
  | .bool b => if b then "true" else "false"
  | .number n => printNumber showReal n
  | .string s => quote s
  | .array items => "[" ++ printItems showReal items ++ "]"
  | .object entries => "\x7b" ++ printEntries showReal entries ++ "\x7d"

def printItems (showReal : F64 → String) : List Json → String
  | [] => ""
  | [x] => print showReal x
  | x :: y :: rest => print showReal x ++ "," ++ printItems showReal (y :: rest)

def printEntries (showReal : F64 → String) : List (String × Json) → String
  | [] => ""
  | [(k, v)] => quote k ++ ":" ++ print showReal v
  | (k, v) :: y :: rest => quote k ++ ":" ++ print showReal v ++ "," ++ printEntries showReal (y :: rest)

end

end Json

/-- Integers are read back as they were printed; a float is read as what `wireReal` says. -/
def Number.wired (wireReal : F64 → F64) : Number → Number
  | .posInt n => .posInt n
  | .negInt i => .negInt i
  | .float f => .float (wireReal f)

namespace Json

mutual

/-- `from_str` of the text `to_string` gives a value. -/
def wired (wireReal : F64 → F64) : Json → Json
  | .null => .null
  | .bool b => .bool b
  | .number n => .number (n.wired wireReal)
  | .string s => .string s
  | .array items => .array (wiredItems wireReal items)
  | .object entries => .object (wiredEntries wireReal entries)

def wiredItems (wireReal : F64 → F64) : List Json → List Json
  | [] => []
  | v :: rest => wired wireReal v :: wiredItems wireReal rest

def wiredEntries (wireReal : F64 → F64) : List (String × Json) → List (String × Json)
  | [] => []
  | (k, v) :: rest => (k, wired wireReal v) :: wiredEntries wireReal rest

end

variable (wireReal : F64 → F64)

theorem wiredItems_eq_map (items : List Json) : wiredItems wireReal items = items.map (wired wireReal) := by
  induction items with
  | nil => rfl
  | cons v rest ih => rw [wiredItems, ih, List.map_cons]

@[simp] theorem wiredEntries_keys (entries : List (String × Json)) :
    (wiredEntries wireReal entries).map (·.1) = entries.map (·.1) := by
  induction entries with
  | nil => rfl
  | cons entry rest ih => rw [wiredEntries, List.map_cons, List.map_cons, ih]

theorem lookup_wiredEntries (entries : List (String × Json)) (k : String) :
    (wiredEntries wireReal entries).lookup k = (entries.lookup k).map (wired wireReal) := by
  induction entries with
  | nil => rfl
  | cons entry rest ih =>
    rw [wiredEntries, List.lookup_cons, List.lookup_cons]
    cases k == entry.1 with
    | true => rfl
    | false => exact ih

@[simp] theorem asStr_wired (v : Json) : (v.wired wireReal).asStr = v.asStr := by
  cases v <;> rfl

end Json

theorem F64.toInt64?_zero {f : F64} (zero : f.bits.toNat = 0 ∨ f.bits.toNat = 2 ^ 63) : f.toInt64? = some 0 := by
  have value : f.toRat = 0 := by
    rcases zero with bits | bits <;> simp [toRat, exponent, bits]
  rw [toInt64?, value]
  rfl

theorem F64.dropMinusZero_of_fraction {f : F64} (fraction : f.toInt64? = none) : f.dropMinusZero = f := by
  refine if_neg fun bits => ?_
  rw [toInt64?_zero (.inr bits)] at fraction
  cases fraction

theorem F64.eq_of_dropMinusZero {f g : F64} (same : g.dropMinusZero = f) (fraction : f.toInt64? = none) : g = f := by
  unfold dropMinusZero at same
  split at same
  · rw [← same, toInt64?_zero (.inl rfl)] at fraction
    cases fraction
  · exact same

theorem Number.asI64_ofInt64 (i : Int64) : (Number.ofInt64 i).asI64 = some i := by
  have upper := i.toInt_lt
  unfold Number.ofInt64
  split
  · rename_i nonneg
    have small : i.toInt.toNat < UInt64.size := by simp only [UInt64.size]; omega
    have bound : i.toInt.toNat < 2 ^ 63 := by omega
    have back : ((i.toInt.toNat : Nat) : Int) = i.toInt := Int.toNat_of_nonneg nonneg
    simp only [Number.asI64, UInt64.toNat_ofNat_of_lt' small, if_pos bound, back, Int64.ofInt_toInt]
  · rfl

theorem Json.printNumber_ofInt64 (showReal : F64 → String) (i : Int64) :
    Json.printNumber showReal (Number.ofInt64 i) = toString i.toInt := by
  have upper := i.toInt_lt
  unfold Number.ofInt64
  split
  · rename_i nonneg
    have small : i.toInt.toNat < UInt64.size := by simp only [UInt64.size]; omega
    have back : ((i.toInt.toNat : Nat) : Int) = i.toInt := Int.toNat_of_nonneg nonneg
    simp only [Json.printNumber, UInt64.toNat_ofNat_of_lt' small]
    rw [← back]
    rfl
  · rfl

end ConvergioMesh
