import Mathlib.Data.List.Sort
import Mdrj.Core.Dict
import Mdrj.L1Encoding.Flt
import Mdrj.L1Encoding.Sha256

/-!
# Canonical JSON and text helpers

`canonical_json` is `json.dumps` with sorted keys, compact separators and
ASCII escaping; event ids, leaf hashes and proposal signatures are digests
of its output. `strip` is `str.strip()`. `Json.normal` forgets the order of
keys, which the output does not show.
-/
namespace Mdrj.L1
open Mdrj.Core

inductive Json where
  | null
  | bool (b : Bool)
  | int (n : Int)
  | float (x : Flt)
  | str (s : String)
  | arr (items : List Json)
  | obj (fields : List (String × Json))

/-- Python truth of a JSON value. -/
def Json.truthy : Json → Bool
  | .null => false
  | .bool b => b
  | .int k => k ≠ 0
  | .float x => x ≠ .fin 0
  | .str s => s ≠ ""
  | .arr xs => !xs.isEmpty
  | .obj fields => !fields.isEmpty

/-- The characters `str.isspace` accepts. -/
def isSpace (c : Char) : Bool :=
  let n := c.toNat
  (9 ≤ n && n ≤ 13) || (28 ≤ n && n ≤ 32) || n == 0x85 || n == 0xa0 || n == 0x1680 ||
    (0x2000 ≤ n && n ≤ 0x200a) || n == 0x2028 || n == 0x2029 || n == 0x202f || n == 0x205f ||
    n == 0x3000

/-- `s.strip()`. -/
def strip (s : String) : String :=
  String.ofList ((s.toList.dropWhile isSpace).reverse.dropWhile isSpace).reverse

def hex4 (n : Nat) : List Char :=
  [n / 4096, n / 256 % 16, n / 16 % 16, n % 16].map Sha256.hexDigit

/-- One character of a JSON string under `ensure_ascii`. -/
def escapeChar (c : Char) : List Char :=
  let n := c.toNat
  if c = '"' then ['\\', '"']
  else if c = '\\' then ['\\', '\\']
  else if n = 10 then ['\\', 'n']
  else if n = 13 then ['\\', 'r']
  else if n = 9 then ['\\', 't']
  else if n = 8 then ['\\', 'b']
  else if n = 12 then ['\\', 'f']
  else if 32 ≤ n ∧ n ≤ 126 then [c]
  else if n < 0x10000 then ['\\', 'u'] ++ hex4 n
  else ['\\', 'u'] ++ hex4 (0xd800 + (n - 0x10000) / 1024) ++
    ['\\', 'u'] ++ hex4 (0xdc00 + (n - 0x10000) % 1024)

def quote (s : String) : List Char := '"' :: s.toList.flatMap escapeChar ++ ['"']

/-- Entries of an object, by key (`sort_keys=True`). -/
def sortKeys (fields : List (String × List Char)) : List (String × List Char) :=
  fields.insertionSort (fun a b => a.1 ≤ b.1)

def commaSeparated (items : List (List Char)) : List Char := List.intercalate [','] items

mutual
def canonicalChars : Json → List Char
  | .null => ['n', 'u', 'l', 'l']
  | .bool b => if b then ['t', 'r', 'u', 'e'] else ['f', 'a', 'l', 's', 'e']
  | .int n => (toString n).toList
  | .float x => x.token.toList
  | .str s => quote s
  | .arr items => '[' :: commaSeparated (canonicalItems items) ++ [']']
  | .obj fields =>
    '\x7b' :: commaSeparated ((sortKeys (canonicalFields fields)).map fun p => quote p.1 ++ ':' :: p.2)
      ++ ['\x7d']

def canonicalItems : List Json → List (List Char)
  | [] => []
  | j :: js => canonicalChars j :: canonicalItems js

def canonicalFields : List (String × Json) → List (String × List Char)
  | [] => []
  | (k, j) :: fs => (k, canonicalChars j) :: canonicalFields fs
end

/-- mirrors mdrj/utils.py:21-23 -/
def canonicalJson (data : Json) : String := String.ofList (canonicalChars data)

mutual
/-- The value with the entries of all its objects by key. Values with one
normal form are equal up to the order of keys. -/
def Json.normal : Json → Json
  | .arr items => .arr (normalItems items)
  | .obj fields => .obj ((normalFields fields).insertionSort fun a b => a.1 ≤ b.1)
  | .null => .null
  | .bool b => .bool b
  | .int n => .int n
  | .float x => .float x
  | .str s => .str s

def normalItems : List Json → List Json
  | [] => []
  | j :: js => j.normal :: normalItems js

def normalFields : List (String × Json) → List (String × Json)
  | [] => []
  | (k, j) :: fs => (k, j.normal) :: normalFields fs
end

/-- mirrors mdrj/utils.py:26-32 -/
def computeEventId (header payload : Json) : String :=
  Sha256.hexdigest (canonicalJson header ++ "::" ++ canonicalJson payload)

end Mdrj.L1
