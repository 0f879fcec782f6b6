import Mathlib.Data.List.Sort

/-!
# Python values and their JSON text

The values a state or payload dict can hold, and `json.dumps(default=str,
sort_keys=True)` and `json.loads` on them. JSON text is kept as the tree it
spells. Dicts keep insertion order; a finite float is its exact value together
with its repr. Strings are without surrogate code points, which Python's may have.
-/
namespace NoblePort.Values

/-- The exception classes the code tells apart. A subclass counts as its class. -/
inductive ErrorClass where
  | auditError | typeError | valueError | recursionError | integrityError | dataError
  | other (name : String)
  deriving DecidableEq, Repr

/-- `CancelledError` is not an `Exception`. Any other exception is known by its
class and by `str(e)`: it always has a text. -/
inductive Exc where
  | cancelled
  | exception (cls : ErrorClass) (str : String)
  deriving DecidableEq, Repr

/-- `str(e)`. -/
def Exc.text : Exc → Except Exc String
  | .cancelled => .ok ""
  | .exception _ str => .ok str

def Exc.isCancelled : Exc → Bool
  | .cancelled => true
  | .exception _ _ => false

inductive PyFloat where
  | finite (val : Rat) (repr : String)
  | nan | inf | negInf
  deriving DecidableEq, Repr

def PyFloat.text : PyFloat → String
  | .finite _ repr => repr
  | .nan => "NaN"
  | .inf => "Infinity"
  | .negInf => "-Infinity"

/-- A dict key; `other` is a tuple or any other hashable, known by its type name. -/
inductive Key where
  | none
  | bool (b : Bool)
  | int (i : Int)
  | float (x : PyFloat)
  | str (s : String)
  | other (type : String)
  deriving DecidableEq, Repr

/-- An arbitrary object is its truth value and what `str` makes of it, and
`cycle` is a reference back to a container that encloses it. -/
inductive PyVal where
  | none
  | bool (b : Bool)
  | int (i : Int)
  | float (x : PyFloat)
  | str (s : String)
  | list (xs : List PyVal)
  | tuple (xs : List PyVal)
  | dict (items : List (Key × PyVal))
  | obj (truth : Bool) (str : Except Exc String)
  | cycle

abbrev Dict := List (Key × PyVal)

inductive Json where
  | null
  | bool (b : Bool)
  | int (i : Int)
  | float (x : PyFloat)
  | str (s : String)
  | arr (xs : List Json)
  | obj (fields : List (String × Json))

/-- The text of a JSON object. -/
abbrev JsonObject := List (String × Json)

namespace Dict

def get? : Dict → String → Option PyVal
  | [], _ => Option.none
  | (k, v) :: d, key => if k = .str key then some v else get? d key

/-- `d[key] = v`: in place when the key is there, at the end otherwise. -/
def set : Dict → String → PyVal → Dict
  | [], key, v => [(.str key, v)]
  | (k, u) :: d, key, v => if k = .str key then (k, v) :: d else (k, u) :: set d key v

@[simp] theorem get?_nil (key : String) : get? [] key = Option.none := rfl

@[simp] theorem get?_cons (k : Key) (v : PyVal) (d : Dict) (key : String) :
    get? ((k, v) :: d) key = if k = .str key then some v else get? d key := rfl

@[simp] theorem get?_set_same (d : Dict) (key : String) (v : PyVal) :
    get? (set d key v) key = some v := by
  induction d with
  | nil => simp [set]
  | cons item d ih =>
    obtain ⟨k, u⟩ := item
    by_cases h : k = .str key <;> simp [set, h, ih]

@[simp] theorem get?_set_other (d : Dict) (key other : String) (v : PyVal) (h : other ≠ key) :
    get? (set d key v) other = get? d other := by
  induction d with
  | nil => simp [set, Ne.symm h]
  | cons item d ih =>
    obtain ⟨k, u⟩ := item
    by_cases hk : k = .str key
    · simp [set, hk, Ne.symm h]
    · simp [set, hk, ih]

end Dict

def PyVal.truthy : PyVal → Bool
  | .none => false
  | .bool b => b
  | .int i => i != 0
  | .float (.finite val _) => val != 0
  | .float _ => true
  | .str s => s != ""
  | .list xs => !xs.isEmpty
  | .tuple xs => !xs.isEmpty
  | .dict items => !items.isEmpty
  | .obj truth _ => truth
  | .cycle => true

/-- The dict without `key`. -/
def Dict.erase (d : Dict) (key : String) : Dict := d.filter fun item => item.1 != .str key

/-- Truth of `d.get(key)`. -/
def Dict.truthyAt (d : Dict) (key : String) : Bool :=
  match d.get? key with
  | some v => v.truthy
  | Option.none => false

/-- `a or b` on an optional string. -/
def pyOr (a : Option String) (b : String) : String :=
  match a with
  | some s => if s = "" then b else s
  | Option.none => b

@[simp] theorem pyOr_self (s : String) : pyOr (some s) s = s := by
  simp [pyOr]

/-- A blank, or one of tab, line feed, vertical tab, form feed and carriage return. -/
def isBlank (c : Char) : Bool := c = ' ' ∨ (9 ≤ c.toNat ∧ c.toNat ≤ 13)

/-- The digits of an integer literal, single underscores between them allowed. -/
def digits : Bool → Nat → List Char → Option Nat
  | true, n, [] => some n
  | false, _, [] => Option.none
  | true, n, '_' :: cs => digits false n cs
  | _, n, c :: cs => if c.isDigit then digits true (10 * n + (c.toNat - '0'.toNat)) cs else Option.none

/-- `int(s)` on ASCII text, with any number of digits. -/
def parseInt (s : String) : Option Int :=
  let cs := ((s.toList.dropWhile isBlank).reverse.dropWhile isBlank).reverse
  match cs with
  | '-' :: cs => (digits false 0 cs).map fun n => -(n : Int)
  | '+' :: cs => (digits false 0 cs).map Int.ofNat
  | cs => (digits false 0 cs).map Int.ofNat

/-- `int(v)`. -/
def PyVal.toInt : PyVal → Except Exc Int
  | .int i => .ok i
  | .bool b => .ok (if b then 1 else 0)
  | .float (.finite val _) => .ok (val.num.tdiv val.den)
  | .float .nan => .error (.exception .valueError "cannot convert float NaN to integer")
  | .float _ => .error (.exception (.other "OverflowError") "cannot convert float infinity to integer")
  | .str s =>
    match parseInt s with
    | some i => .ok i
    | Option.none => .error (.exception .valueError "invalid literal for int() with base 10")
  | _ => .error (.exception .typeError
      "int() argument must be a string, a bytes-like object or a real number")

def Key.toVal : Key → PyVal
  | .none => .none
  | .bool b => .bool b
  | .int i => .int i
  | .float x => .float x
  | .str s => .str s
  | .other type => .obj true (.ok type)

/-- `list(v)`. -/
def PyVal.toList : PyVal → Except Exc (List PyVal)
  | .list xs => .ok xs
  | .tuple xs => .ok xs
  | .str s => .ok (s.toList.map fun c => .str (String.singleton c))
  | .dict items => .ok (items.map fun item => item.1.toVal)
  | _ => .error (.exception .typeError "object is not iterable")

def Key.isStr : Key → Bool
  | .str _ => true
  | _ => false

def Key.isNumber : Key → Bool
  | .bool _ | .int _ | .float _ => true
  | _ => false

/-- Keys that `sorted` can put in order: all strings, all numbers, or at most one. -/
def sortable (keys : List Key) : Bool :=
  keys.length ≤ 1 || keys.all Key.isStr || keys.all Key.isNumber

/-- String keys are sorted by code points. The order of number keys decides
nothing that is read back, so they stay where they are. -/
def Key.le : Key → Key → Bool
  | .str a, .str b => a ≤ b
  | _, _ => true

def sortItems {β : Type} (items : List (Key × β)) : List (Key × β) :=
  items.insertionSort fun a b => a.1.le b.1 = true

/-- The string that stands for a key in JSON. -/
def Key.text : Key → Except Exc String
  | .none => .ok "null"
  | .bool b => .ok (if b then "true" else "false")
  | .int i => .ok (toString i)
  | .float x => .ok x.text
  | .str s => .ok s
  | .other type => .error (.exception .typeError
      s!"keys must be str, int, float, bool or None, not {type}")

def encodeFields : List (Key × Except Exc Json) → Except Exc JsonObject
  | [] => .ok []
  | (k, r) :: items => do
    let key ← k.text
    let value ← r
    let rest ← encodeFields items
    return (key, value) :: rest

def encodeObject (items : List (Key × Except Exc Json)) : Except Exc JsonObject :=
  if sortable (items.map Prod.fst) then encodeFields (sortItems items)
  else .error (.exception .typeError "'<' not supported between instances of the keys")

mutual

/-- An int is written with all its digits, however many. -/
def encode : PyVal → Except Exc Json
  | .none => .ok .null
  | .bool b => .ok (.bool b)
  | .int i => .ok (.int i)
  | .float x => .ok (.float x)
  | .str s => .ok (.str s)
  | .list xs => (encodeList xs).map .arr
  | .tuple xs => (encodeList xs).map .arr
  | .dict items => (encodeObject (encodeItems items)).map .obj
  | .obj _ str => str.map .str
  | .cycle => .error (.exception .valueError "Circular reference detected")

def encodeList : List PyVal → Except Exc (List Json)
  | [] => .ok []
  | x :: xs => do
    let y ← encode x
    let ys ← encodeList xs
    return y :: ys

def encodeItems : Dict → List (Key × Except Exc Json)
  | [] => []
  | (k, v) :: items => (k, encode v) :: encodeItems items

end

/-- `json.dumps(d, default=str, sort_keys=True)`. -/
def dumps (d : Dict) : Except Exc JsonObject := encodeObject (encodeItems d)

mutual

def decode : Json → PyVal
  | .null => .none
  | .bool b => .bool b
  | .int i => .int i
  | .float x => .float x
  | .str s => .str s
  | .arr xs => .list (decodeList xs)
  | .obj fields => .dict (loads fields)

def decodeList : List Json → List PyVal
  | [] => []
  | x :: xs => decode x :: decodeList xs

/-- `json.loads` on the text of an object. -/
def loads : JsonObject → Dict
  | [] => []
  | (k, v) :: fields => (.str k, decode v) :: loads fields

end

mutual

/-- No `NaN` or `Infinity` token. -/
def Json.strict : Json → Bool
  | .float (.finite _ _) => true
  | .float _ => false
  | .arr xs => strictList xs
  | .obj fields => strictObject fields
  | _ => true

def strictList : List Json → Bool
  | [] => true
  | x :: xs => x.strict && strictList xs

def strictObject : JsonObject → Bool
  | [] => true
  | (_, v) :: fields => v.strict && strictObject fields

end

end NoblePort.Values
