import Mathlib.Data.List.Basic

/-!
# Base64

Bytes as text, four signs for three bytes. The decoder is the lenient one: it
passes over signs that are not in the alphabet, and stops at the padding that
ends a group.

* `decode_encode`: what was encoded is decoded.
* `mem_encode`: the signs of an encoding.
-/
namespace Mdrj.Core.Base64

def alphabet : List Char := [
  'A', 'B', 'C', 'D', 'E', 'F', 'G', 'H', 'I', 'J', 'K', 'L', 'M', 'N', 'O', 'P', 'Q', 'R', 'S', 'T', 'U', 'V',
  'W', 'X', 'Y', 'Z', 'a', 'b', 'c', 'd', 'e', 'f', 'g', 'h', 'i', 'j', 'k', 'l', 'm', 'n', 'o', 'p', 'q', 'r',
  's', 't', 'u', 'v', 'w', 'x', 'y', 'z', '0', '1', '2', '3', '4', '5', '6', '7', '8', '9', '+', '/']

/-- The sign of six bits. -/
def sextet (n : Nat) : Char := alphabet.getD n 'A'

/-- The six bits of a sign. -/
def value (c : Char) : Option Nat := alphabet.idxOf? c

def encode : List Nat → List Char
  | [] => []
  | [a] => [sextet (a / 4), sextet (a % 4 * 16), '=', '=']
  | [a, b] => [sextet (a / 4), sextet (a % 4 * 16 + b / 16), sextet (b % 16 * 4), '=']
  | a :: b :: c :: bytes =>
    sextet (a / 4) :: sextet (a % 4 * 16 + b / 16) :: sextet (b % 16 * 4 + c / 64) :: sextet (c % 64) :: encode bytes

/-- `quad` signs of the group are read, `left` are the bits left of them, after
`pads` signs of padding. -/
def decodeFrom : Nat → Nat → Nat → List Char → Option (List Nat)
  | quad, _, _, [] => if quad = 0 then some [] else none
  | quad, left, pads, c :: text =>
    if c = '=' then
      if 2 ≤ quad then if 4 ≤ quad + (pads + 1) then some [] else decodeFrom quad left (pads + 1) text
      else decodeFrom quad left pads text
    else
      match value c with
      | none => decodeFrom quad left pads text
      | some v =>
        match quad with
        | 0 => decodeFrom 1 v 0 text
        | 1 => (decodeFrom 2 (v % 16) 0 text).map ((left * 4 + v / 16) :: ·)
        | 2 => (decodeFrom 3 (v % 4) 0 text).map ((left * 16 + v / 4) :: ·)
        | _ => (decodeFrom 0 0 0 text).map ((left * 64 + v) :: ·)

def decode (text : List Char) : Option (List Nat) := decodeFrom 0 0 0 text

theorem value_sextet {n : Nat} (h : n < 64) : value (sextet n) = some n := by
  have hall : ∀ m : Fin 64, value (sextet m) = some m.val := by decide +kernel
  exact hall ⟨n, h⟩

theorem sextet_ne_pad {n : Nat} (h : n < 64) : sextet n ≠ '=' := by
  have hall : ∀ m : Fin 64, sextet m ≠ '=' := by decide +kernel
  exact hall ⟨n, h⟩

theorem sextet_mem (n : Nat) : sextet n ∈ alphabet := by
  unfold sextet
  rw [List.getD_eq_getElem?_getD]
  cases h : alphabet[n]? with
  | none => decide
  | some c => exact List.mem_of_getElem? h

/-- The signs of an encoding. -/
theorem mem_encode {bytes : List Nat} {c : Char} (h : c ∈ encode bytes) : c ∈ alphabet ∨ c = '=' := by
  induction bytes using encode.induct with
  | case1 => cases h
  | case2 a =>
    simp only [encode, List.mem_cons, List.not_mem_nil, or_false] at h
    rcases h with rfl | rfl | rfl | rfl
    · exact .inl (sextet_mem _)
    · exact .inl (sextet_mem _)
    · exact .inr rfl
    · exact .inr rfl
  | case3 a b =>
    simp only [encode, List.mem_cons, List.not_mem_nil, or_false] at h
    rcases h with rfl | rfl | rfl | rfl
    · exact .inl (sextet_mem _)
    · exact .inl (sextet_mem _)
    · exact .inl (sextet_mem _)
    · exact .inr rfl
  | case4 a b c' bytes ih =>
    simp only [encode, List.mem_cons] at h
    rcases h with rfl | rfl | rfl | rfl | h
    · exact .inl (sextet_mem _)
    · exact .inl (sextet_mem _)
    · exact .inl (sextet_mem _)
    · exact .inl (sextet_mem _)
    · exact ih h

/-! ### One sign -/

theorem decodeFrom_zero {v : Nat} (hv : v < 64) (left pads : Nat) (text : List Char) :
    decodeFrom 0 left pads (sextet v :: text) = decodeFrom 1 v 0 text := by
  rw [decodeFrom, if_neg (sextet_ne_pad hv), value_sextet hv]
  rfl

theorem decodeFrom_one {v : Nat} (hv : v < 64) (left pads : Nat) (text : List Char) :
    decodeFrom 1 left pads (sextet v :: text) = (decodeFrom 2 (v % 16) 0 text).map ((left * 4 + v / 16) :: ·) := by
  rw [decodeFrom, if_neg (sextet_ne_pad hv), value_sextet hv]
  rfl

theorem decodeFrom_two {v : Nat} (hv : v < 64) (left pads : Nat) (text : List Char) :
    decodeFrom 2 left pads (sextet v :: text) = (decodeFrom 3 (v % 4) 0 text).map ((left * 16 + v / 4) :: ·) := by
  rw [decodeFrom, if_neg (sextet_ne_pad hv), value_sextet hv]
  rfl

theorem decodeFrom_three {v : Nat} (hv : v < 64) (left pads : Nat) (text : List Char) :
    decodeFrom 3 left pads (sextet v :: text) = (decodeFrom 0 0 0 text).map ((left * 64 + v) :: ·) := by
  rw [decodeFrom, if_neg (sextet_ne_pad hv), value_sextet hv]
  rfl

/-- **What was encoded is decoded.** -/
theorem decode_encode {bytes : List Nat} (h : ∀ b ∈ bytes, b < 256) : decode (encode bytes) = some bytes := by
  unfold decode
  induction bytes using encode.induct with
  | case1 => rfl
  | case2 a =>
    have ha : a < 256 := h a (by simp)
    rw [encode, decodeFrom_zero (by omega), decodeFrom_one (by omega)]
    have hbyte : a / 4 * 4 + a % 4 * 16 / 16 = a := by omega
    rw [hbyte]
    rfl
  | case3 a b =>
    have ha : a < 256 := h a (by simp)
    have hb : b < 256 := h b (by simp)
    rw [encode, decodeFrom_zero (by omega), decodeFrom_one (by omega), decodeFrom_two (by omega)]
    have hfirst : a / 4 * 4 + (a % 4 * 16 + b / 16) / 16 = a := by omega
    have hsecond : (a % 4 * 16 + b / 16) % 16 * 16 + b % 16 * 4 / 4 = b := by omega
    rw [hfirst, hsecond]
    rfl
  | case4 a b c bytes ih =>
    have ha : a < 256 := h a (by simp)
    have hb : b < 256 := h b (by simp)
    have hc : c < 256 := h c (by simp)
    rw [encode, decodeFrom_zero (by omega), decodeFrom_one (by omega), decodeFrom_two (by omega),
      decodeFrom_three (by omega), ih fun d hd => h d (by simp [hd])]
    have hfirst : a / 4 * 4 + (a % 4 * 16 + b / 16) / 16 = a := by omega
    have hsecond : (a % 4 * 16 + b / 16) % 16 * 16 + (b % 16 * 4 + c / 64) / 4 = b := by omega
    have hthird : (b % 16 * 4 + c / 64) % 4 * 64 + c % 64 = c := by omega
    rw [hfirst, hsecond, hthird]
    rfl

end Mdrj.Core.Base64
