import Mathlib.Algebra.Group.Nat.Defs
import Mathlib.Data.List.Basic

/-!
# SHA-256 and HMAC-SHA256

`hashlib.sha256` and `hmac.new(key, body, sha256)` on byte lists, in `Nat`
arithmetic modulo 2^32 so that a digest evaluates in the kernel. The node
uses digests as opaque 64-character texts (`hexdigest_length`); only the
coin surrogate of the fame vote looks at their bits.
-/
namespace Mdrj.L1.Sha256

abbrev Bytes := List Nat

def word : Nat := 4294967296

def rotr (n x : Nat) : Nat := (x >>> n) ||| ((x <<< (32 - n)) % word)

def roundConstants : List Nat := [
  0x428a2f98, 0x71374491, 0xb5c0fbcf, 0xe9b5dba5, 0x3956c25b, 0x59f111f1, 0x923f82a4, 0xab1c5ed5,
  0xd807aa98, 0x12835b01, 0x243185be, 0x550c7dc3, 0x72be5d74, 0x80deb1fe, 0x9bdc06a7, 0xc19bf174,
  0xe49b69c1, 0xefbe4786, 0x0fc19dc6, 0x240ca1cc, 0x2de92c6f, 0x4a7484aa, 0x5cb0a9dc, 0x76f988da,
  0x983e5152, 0xa831c66d, 0xb00327c8, 0xbf597fc7, 0xc6e00bf3, 0xd5a79147, 0x06ca6351, 0x14292967,
  0x27b70a85, 0x2e1b2138, 0x4d2c6dfc, 0x53380d13, 0x650a7354, 0x766a0abb, 0x81c2c92e, 0x92722c85,
  0xa2bfe8a1, 0xa81a664b, 0xc24b8b70, 0xc76c51a3, 0xd192e819, 0xd6990624, 0xf40e3585, 0x106aa070,
  0x19a4c116, 0x1e376c08, 0x2748774c, 0x34b0bcb5, 0x391c0cb3, 0x4ed8aa4a, 0x5b9cca4f, 0x682e6ff3,
  0x748f82ee, 0x78a5636f, 0x84c87814, 0x8cc70208, 0x90befffa, 0xa4506ceb, 0xbef9a3f7, 0xc67178f2]

structure Chain where
  (a b c d e f g h : Nat)

def initial : Chain :=
  ⟨0x6a09e667, 0xbb67ae85, 0x3c6ef372, 0xa54ff53a, 0x510e527f, 0x9b05688c, 0x1f83d9ab, 0x5be0cd19⟩

/-- The message schedule, newest word first. -/
def schedule : Nat → List Nat → List Nat
  | 0, ws => ws
  | n + 1, ws =>
    let x := ws.getD 14 0
    let y := ws.getD 1 0
    let s0 := rotr 7 x ^^^ rotr 18 x ^^^ (x >>> 3)
    let s1 := rotr 17 y ^^^ rotr 19 y ^^^ (y >>> 10)
    schedule n ((s1 + ws.getD 6 0 + s0 + ws.getD 15 0) % word :: ws)

def rounds : List Nat → List Nat → Chain → Chain
  | k :: ks, w :: ws, ⟨a, b, c, d, e, f, g, h⟩ =>
    let s1 := rotr 6 e ^^^ rotr 11 e ^^^ rotr 25 e
    let ch := (e &&& f) ^^^ ((e ^^^ (word - 1)) &&& g)
    let t1 := (h + s1 + ch + k + w) % word
    let s0 := rotr 2 a ^^^ rotr 13 a ^^^ rotr 22 a
    let maj := (a &&& b) ^^^ (a &&& c) ^^^ (b &&& c)
    let t2 := (s0 + maj) % word
    rounds ks ws ⟨(t1 + t2) % word, a, b, c, (d + t1) % word, e, f, g⟩
  | _, _, s => s

def bigEndian : Bytes → Nat := List.foldl (fun x b => x * 256 + b) 0

def words : Nat → Bytes → List Nat
  | 0, _ => []
  | n + 1, bs => bigEndian (bs.take 4) :: words n (bs.drop 4)

def Chain.add (s t : Chain) : Chain :=
  ⟨(s.a + t.a) % word, (s.b + t.b) % word, (s.c + t.c) % word, (s.d + t.d) % word,
    (s.e + t.e) % word, (s.f + t.f) % word, (s.g + t.g) % word, (s.h + t.h) % word⟩

def compress (s : Chain) (block : Bytes) : Chain :=
  s.add (rounds roundConstants (schedule 48 (words 16 block).reverse).reverse s)

def blocks : Nat → Chain → Bytes → Chain
  | 0, s, _ => s
  | n + 1, s, m => blocks n (compress s (m.take 64)) (m.drop 64)

/-- `n` bytes of `x`, most significant first. -/
def toBytes : Nat → Nat → Bytes
  | 0, _ => []
  | n + 1, x => (x / 256 ^ n) % 256 :: toBytes n x

def pad (m : Bytes) : Bytes :=
  m ++ 0x80 :: List.replicate ((119 - m.length % 64) % 64) 0 ++ toBytes 8 (m.length * 8)

/-- `hashlib.sha256(m).digest()`. -/
def digest (m : Bytes) : Bytes :=
  let p := pad m
  let s := blocks (p.length / 64) initial p
  [s.a, s.b, s.c, s.d, s.e, s.f, s.g, s.h].flatMap (toBytes 4)

def hexDigit (n : Nat) : Char := Char.ofNat (if n < 10 then 48 + n else 87 + n)

def hexChars (bs : Bytes) : List Char :=
  bs.flatMap fun b => [hexDigit (b / 16), hexDigit (b % 16)]

def hex (bs : Bytes) : String := String.ofList (hexChars bs)

/-- The UTF-8 bytes of a character. -/
def encodeChar (c : Char) : Bytes :=
  let n := c.toNat
  if n < 0x80 then [n]
  else if n < 0x800 then [0xc0 + n / 64, 0x80 + n % 64]
  else if n < 0x10000 then [0xe0 + n / 4096, 0x80 + n / 64 % 64, 0x80 + n % 64]
  else [0xf0 + n / 262144, 0x80 + n / 4096 % 64, 0x80 + n / 64 % 64, 0x80 + n % 64]

def encodeChars (cs : List Char) : Bytes := cs.flatMap encodeChar

/-- `str.encode()`. -/
def encode (s : String) : Bytes := encodeChars s.toList

theorem encode_ofList (cs : List Char) : encode (String.ofList cs) = encodeChars cs := by
  rw [encode, String.toList_ofList]

/-- `hashlib.sha256(s.encode()).hexdigest()`. -/
def hexdigest (s : String) : String := hex (digest (encode s))

def hmacKey (key : Bytes) : Bytes :=
  let k := if 64 < key.length then digest key else key
  k ++ List.replicate (64 - k.length) 0

/-- `hmac.new(key, body, sha256).hexdigest()`. -/
def hmac (key body : Bytes) : String :=
  let k := hmacKey key
  hex (digest (k.map (· ^^^ 0x5c) ++ digest (k.map (· ^^^ 0x36) ++ body)))

theorem toBytes_length (n x : Nat) : (toBytes n x).length = n := by
  induction n with
  | zero => rfl
  | succ n ih => simp [toBytes, ih]

theorem digest_length (m : Bytes) : (digest m).length = 32 := by
  simp [digest, toBytes_length]

theorem hex_length (bs : Bytes) : (hex bs).length = 2 * bs.length := by
  induction bs with
  | nil => rfl
  | cons b bs ih =>
    simp only [hex, hexChars, String.length_ofList, List.flatMap_cons, List.length_append] at ih ⊢
    simp [ih]; omega

theorem hexdigest_length (s : String) : (hexdigest s).length = 64 := by
  rw [hexdigest, hex_length, digest_length]

theorem hmac_length (key body : Bytes) : (hmac key body).length = 64 := by
  rw [hmac, hex_length, digest_length]

theorem toBytes_lt {n x b : Nat} (h : b ∈ toBytes n x) : b < 256 := by
  induction n with
  | zero => cases h
  | succ n ih =>
    rcases List.mem_cons.1 h with rfl | h
    · exact Nat.mod_lt _ (by decide)
    · exact ih h

theorem digest_lt {m : Bytes} {b : Nat} (h : b ∈ digest m) : b < 256 := by
  unfold digest at h
  obtain ⟨x, -, hx⟩ := List.mem_flatMap.1 h
  exact toBytes_lt hx

theorem hexDigit_ascii : ∀ n < 16, (hexDigit n).toNat < 128 := by decide

/-- Hexadecimal text is ASCII. -/
theorem hexChars_digest_ascii {m : Bytes} {c : Char} (h : c ∈ hexChars (digest m)) :
    c.toNat < 128 := by
  obtain ⟨b, hb, hc⟩ := List.mem_flatMap.1 h
  have hlt := digest_lt hb
  rw [List.mem_cons, List.mem_singleton] at hc
  rcases hc with rfl | rfl
  · exact hexDigit_ascii _ (by omega)
  · exact hexDigit_ascii _ (by omega)

/-- The test vector of the empty message. -/
example : (digest []).take 4 = [0xe3, 0xb0, 0xc4, 0x42] := by decide +kernel

end Mdrj.L1.Sha256
