import Mathlib.Data.Rat.Floor
import Mathlib.Algebra.Order.Ring.Rat

/-!
# Python floats

A Python `float` is an IEEE 754 double. `Flt` keeps what the node observes
of one: NaN, the two infinities, or the rational value of a finite double
(`-0.0` is identified with `0.0`, which it equals). Comparison, addition and
halving follow the standard, with `ofRat` the round-to-nearest-even of an
exact result; `token` is the text `json.dumps` writes.

* `lt_irrefl`, `lt_trans`, `lt_total`: away from NaN the comparison is a
  strict total order, so sorting by a timestamp is well defined.
-/
namespace Mdrj.L1

inductive Flt where
  | nan
  | negInf
  | fin (q : ℚ)
  | posInf
  deriving DecidableEq, Repr

namespace Flt

/-- The operator `<` of Python on floats. -/
def lt : Flt → Flt → Bool
  | .nan, _ => false
  | _, .nan => false
  | .negInf, .negInf => false
  | .negInf, _ => true
  | .fin _, .negInf => false
  | .fin p, .fin q => decide (p < q)
  | .fin _, .posInf => true
  | .posInf, _ => false

theorem lt_irrefl (x : Flt) : lt x x = false := by cases x <;> simp [lt]

theorem lt_trans {x y z : Flt} (h1 : lt x y = true) (h2 : lt y z = true) : lt x z = true := by
  cases x <;> cases y <;> cases z <;> simp [lt] at h1 h2 ⊢
  exact h1.trans h2

theorem lt_asymm {x y : Flt} (h : lt x y = true) : lt y x = false := by
  cases hyx : lt y x
  · rfl
  · have := lt_trans h hyx; rw [lt_irrefl] at this; cases this

/-- Two floats other than NaN are comparable. -/
theorem lt_total {x y : Flt} (hx : x ≠ .nan) (hy : y ≠ .nan) (hne : x ≠ y) :
    lt x y = true ∨ lt y x = true := by
  cases x <;> cases y <;> simp [lt] at hx hy hne ⊢
  exact hne

/-- On floats other than NaN, not being smaller is transitive. -/
theorem not_lt_trans {x y z : Flt} (hx : x ≠ .nan) (hy : y ≠ .nan) (hz : z ≠ .nan)
    (hxy : lt x y = false) (hyz : lt y z = false) : lt x z = false := by
  cases x <;> cases y <;> cases z <;> simp_all [lt]
  exact hyz.trans hxy

/-! ## Arithmetic -/

def pow2 (e : ℤ) : ℚ := if 0 ≤ e then 2 ^ e.toNat else 1 / 2 ^ (-e).toNat

def pow10 (e : ℤ) : ℚ := if 0 ≤ e then 10 ^ e.toNat else 1 / 10 ^ (-e).toNat

def roundHalfEven (q : ℚ) : ℤ :=
  let f := q.floor
  let d := q - f
  if d < 1 / 2 then f else if 1 / 2 < d then f + 1 else if f % 2 = 0 then f else f + 1

/-- `⌊log₂ q⌋` for `0 < q`. -/
def ilog2 (q : ℚ) : ℤ :=
  let e : ℤ := q.num.natAbs.log2 - q.den.log2
  if q < pow2 e then e - 1 else e

/-- The double nearest to `q`, ties to even: 53 significant bits, smallest
exponent -1074, overflow to an infinity at 2^1024. -/
def ofRat (q : ℚ) : Flt :=
  if q = 0 then .fin 0
  else
    let a := |q|
    let u := max (ilog2 a - 52) (-1074)
    let r := roundHalfEven (a / pow2 u) * pow2 u
    if pow2 1024 ≤ r then (if q < 0 then .negInf else .posInf)
    else .fin (if q < 0 then -r else r)

def add : Flt → Flt → Flt
  | .nan, _ => .nan
  | _, .nan => .nan
  | .posInf, .negInf => .nan
  | .negInf, .posInf => .nan
  | .posInf, _ => .posInf
  | _, .posInf => .posInf
  | .negInf, _ => .negInf
  | _, .negInf => .negInf
  | .fin p, .fin q => ofRat (p + q)

def half : Flt → Flt
  | .fin q => ofRat (q / 2)
  | x => x

def neg : Flt → Flt
  | .nan => .nan
  | .negInf => .posInf
  | .posInf => .negInf
  | .fin q => .fin (-q)

def sub (x y : Flt) : Flt := x.add y.neg

/-- The sign of a float other than NaN. -/
def sign : Flt → ℤ
  | .nan => 0
  | .negInf => -1
  | .fin q => if q < 0 then -1 else if q = 0 then 0 else 1
  | .posInf => 1

def mul : Flt → Flt → Flt
  | .nan, _ => .nan
  | _, .nan => .nan
  | .fin p, .fin q => ofRat (p * q)
  | x, y =>
    let s := x.sign * y.sign
    if s < 0 then .negInf else if s = 0 then .nan else .posInf

/-- `int(x)`: the fraction is cut off; an infinity and NaN raise. -/
def trunc : Flt → Option ℤ
  | .fin q => some (if q < 0 then -(-q).floor else q.floor)
  | _ => none

/-- `float(n)`; an integer beyond the finite doubles raises
`OverflowError`. -/
def ofInt (n : ℤ) : Option Flt :=
  match ofRat n with
  | .fin q => some (.fin q)
  | _ => none

/-- `x * 86400.0`. -/
def days : Flt → Flt
  | .fin q => ofRat (q * 86400)
  | x => x

/-- `max(0.0, x)`. -/
def clamp0 (x : Flt) : Flt := if lt (.fin 0) x then x else .fin 0

/-! ## Text -/

/-- `⌊log₁₀ q⌋` for `0 < q`. -/
def ilog10 (q : ℚ) : ℤ :=
  let e : ℤ := (Nat.toDigits 10 q.num.natAbs).length - (Nat.toDigits 10 q.den).length
  if q < pow10 e then e - 1 else e

/-- The shortest decimal that reads back as `q`: digits and the exponent of
the last digit. Both neighbours are tried, since the rounding interval of a
power of two is not symmetric. -/
def shortest (q : ℚ) (e : ℤ) : ℕ → ℕ → ℕ × ℤ
  | 0, n => ((q / pow10 (e - n + 1)).floor.toNat, e - n + 1)
  | fuel + 1, n =>
    let k := e - n + 1
    let lo := (q / pow10 k).floor
    let ok := fun c : ℤ => ofRat (c * pow10 k) = .fin q
    if ok lo ∧ (¬ ok (lo + 1) ∨ q - lo * pow10 k ≤ (lo + 1) * pow10 k - q) then (lo.toNat, k)
    else if ok (lo + 1) then ((lo + 1).toNat, k)
    else shortest q e fuel (n + 1)

def trimZeros : ℕ → ℕ → ℤ → ℕ × ℤ
  | 0, c, k => (c, k)
  | fuel + 1, c, k => if c % 10 = 0 then trimZeros fuel (c / 10) (k + 1) else (c, k)

/-- `float.__repr__` of a positive finite double. -/
def reprPos (q : ℚ) : String :=
  let (c, k) := shortest q (ilog10 q) 17 1
  let (c, k) := trimZeros 20 c k
  let ds := (toString c).toList
  let pt : ℤ := ds.length + k
  if -4 < pt ∧ pt ≤ 16 then
    if pt ≤ 0 then String.ofList ("0.".toList ++ List.replicate (-pt).toNat '0' ++ ds)
    else if (ds.length : ℤ) ≤ pt then
      String.ofList (ds ++ List.replicate (pt - ds.length).toNat '0' ++ ".0".toList)
    else String.ofList (ds.take pt.toNat ++ ['.'] ++ ds.drop pt.toNat)
  else
    let x := pt - 1
    let xs := (toString x.natAbs).toList
    let xs := if xs.length < 2 then '0' :: xs else xs
    let frac := if ds.length ≤ 1 then [] else '.' :: ds.drop 1
    String.ofList (ds.take 1 ++ frac ++ ['e', if x < 0 then '-' else '+'] ++ xs)

/-- The text of a float in `json.dumps`. -/
def token : Flt → String
  | .nan => "NaN"
  | .negInf => "-Infinity"
  | .posInf => "Infinity"
  | .fin q => if q = 0 then "0.0" else if q < 0 then "-" ++ reprPos (-q) else reprPos q

end Flt
end Mdrj.L1
