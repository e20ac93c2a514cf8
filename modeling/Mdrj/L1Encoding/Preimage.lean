import Mathlib
import Mdrj.Core.Codes
import Mdrj.L1Encoding.Codec
import Mdrj.L1Encoding.Reading

/-!
# The preimage of an event id is unambiguous

An event id is the digest of `header::payload`, both canonical JSON. The two
colons may also stand inside a string of either part, so where the header
ends is told by the text of the header alone: no JSON object is written as
the beginning of what another one is written as. Numbers are opaque tokens
here, and of a token all that matters is which characters it may have.

Results:
* `canonicalChars_eq`: canonical JSON is the plain text of the value with its
  keys in order and its numbers as tokens.
* `Tokens.text_reads`: a value is told from the text, before what may follow
  a value; an object (`Tokens.obj_readable`), before anything.
* `preimage_unambiguous`: the hashed text determines header and payload.
-/
namespace Mdrj.L1
open Mdrj.Core

/-- The text of a number. -/
structure NumberToken where
  text : String
  nonempty : text.toList ≠ []
  signs : ∀ c ∈ text.toList, numberSign c = true

/-- A JSON value with its numbers as opaque tokens. -/
inductive Tokens where
  | null
  | bool (b : Bool)
  | number (token : NumberToken)
  | str (s : String)
  | arr (items : List Tokens)
  | obj (fields : List (String × Tokens))

theorem int_token_nonempty (n : Int) : (toString n).toList ≠ [] := by
  intro h
  cases n with
  | ofNat m =>
    have hdigits : (toString m).toList ≠ [] := by
      rw [Nat.toString_eq_repr, Nat.toList_repr]
      exact Nat.toDigits_ne_nil
    exact hdigits h
  | negSucc m =>
    have htext : (toString (Int.negSucc m)).toList = '-' :: (toString (m + 1)).toList :=
      String.toList_append
    rw [htext] at h
    cases h

theorem float_token_nonempty (x : Flt) : x.token.toList ≠ [] := by
  have hpos : ∀ q, (Flt.reprPos q).toList ≠ [] := by
    intro q
    unfold Flt.reprPos
    dsimp only
    split
    · split
      · simp
      · split <;> simp
    · simp
  cases x with
  | nan => simp [Flt.token]
  | negInf => simp [Flt.token]
  | posInf => simp [Flt.token]
  | fin q =>
    unfold Flt.token
    dsimp only
    split
    · simp
    · split
      · simp
      · exact hpos q

def NumberToken.ofInt (n : Int) : NumberToken := ⟨toString n, int_token_nonempty n, int_signs n⟩

def NumberToken.ofFlt (x : Flt) : NumberToken := ⟨x.token, float_token_nonempty x, token_signs x⟩

mutual
/-- The value with its numbers as tokens. -/
def Json.tokens : Json → Tokens
  | .null => .null
  | .bool b => .bool b
  | .int n => .number (.ofInt n)
  | .float x => .number (.ofFlt x)
  | .str s => .str s
  | .arr items => .arr (tokensItems items)
  | .obj fields => .obj (tokensFields fields)

def tokensItems : List Json → List Tokens
  | [] => []
  | j :: js => j.tokens :: tokensItems js

def tokensFields : List (String × Json) → List (String × Tokens)
  | [] => []
  | (k, j) :: fs => (k, j.tokens) :: tokensFields fs
end

mutual
/-- The value as it stands, with compact separators. -/
def Tokens.text : Tokens → List Char
  | .null => ['n', 'u', 'l', 'l']
  | .bool b => if b then ['t', 'r', 'u', 'e'] else ['f', 'a', 'l', 's', 'e']
  | .number token => token.text.toList
  | .str s => quote s
  | .arr items => '[' :: commaSeparated (textItems items) ++ [']']
  | .obj fields => '\x7b' :: commaSeparated (textFields fields) ++ ['\x7d']

def textItems : List Tokens → List (List Char)
  | [] => []
  | t :: ts => t.text :: textItems ts

def textFields : List (String × Tokens) → List (List Char)
  | [] => []
  | (k, t) :: fs => (quote k ++ ':' :: t.text) :: textFields fs
end

/-- An entry of an object. -/
def fieldText (p : String × Tokens) : List Char := quote p.1 ++ ':' :: p.2.text

/-! ## Lists as maps -/

theorem canonicalItems_eq (items : List Json) : canonicalItems items = items.map canonicalChars := by
  induction items with
  | nil => rw [canonicalItems, List.map_nil]
  | cons j items ih => rw [canonicalItems, ih, List.map_cons]

theorem canonicalFields_eq (fields : List (String × Json)) :
    canonicalFields fields = fields.map fun p => (p.1, canonicalChars p.2) := by
  induction fields with
  | nil => rw [canonicalFields, List.map_nil]
  | cons p fields ih => rw [canonicalFields, ih, List.map_cons]

theorem tokensItems_eq (items : List Json) : tokensItems items = items.map Json.tokens := by
  induction items with
  | nil => rw [tokensItems, List.map_nil]
  | cons j items ih => rw [tokensItems, ih, List.map_cons]

theorem tokensFields_eq (fields : List (String × Json)) :
    tokensFields fields = fields.map fun p => (p.1, p.2.tokens) := by
  induction fields with
  | nil => rw [tokensFields, List.map_nil]
  | cons p fields ih => rw [tokensFields, ih, List.map_cons]

theorem textItems_eq (items : List Tokens) : textItems items = items.map Tokens.text := by
  induction items with
  | nil => rw [textItems, List.map_nil]
  | cons t items ih => rw [textItems, ih, List.map_cons]

theorem textFields_eq (fields : List (String × Tokens)) : textFields fields = fields.map fieldText := by
  induction fields with
  | nil => rw [textFields, List.map_nil]
  | cons p fields ih => rw [textFields, ih, List.map_cons, fieldText]

/-! ## Canonical JSON as plain text -/

/-- Sorting by key, before or after the values are written. -/
theorem sortKeys_map (fields : List (String × Json)) (f : Json → List Char) :
    sortKeys (fields.map fun p => (p.1, f p.2)) =
      (fields.insertionSort fun a b => a.1 ≤ b.1).map fun p => (p.1, f p.2) := by
  unfold sortKeys
  symm
  exact List.map_insertionSort _ _ _ _ fun _ _ _ _ => Iff.rfl

theorem canonicalChars_eq (j : Json) : canonicalChars j = j.normal.tokens.text := by
  cases j with
  | null => rw [canonicalChars, Json.normal, Json.tokens, Tokens.text]
  | bool b => rw [canonicalChars, Json.normal, Json.tokens, Tokens.text]
  | int n => rw [canonicalChars, Json.normal, Json.tokens, Tokens.text]; rfl
  | float x => rw [canonicalChars, Json.normal, Json.tokens, Tokens.text]; rfl
  | str s => rw [canonicalChars, Json.normal, Json.tokens, Tokens.text]
  | arr items =>
    have hitems : canonicalItems items = textItems (tokensItems (normalItems items)) := by
      rw [canonicalItems_eq, textItems_eq, tokensItems_eq, Json.normalItems_eq, List.map_map, List.map_map]
      refine List.map_congr_left fun item hitem => ?_
      exact canonicalChars_eq item
    rw [canonicalChars, Json.normal, Json.tokens, Tokens.text, hitems]
  | obj fields =>
    have hvalues : canonicalFields fields = (normalFields fields).map fun p => (p.1, p.2.tokens.text) := by
      rw [canonicalFields_eq, Json.normalFields_eq, List.map_map]
      refine List.map_congr_left fun p hp => ?_
      exact Prod.ext rfl (canonicalChars_eq p.2)
    rw [canonicalChars, Json.normal, Json.tokens, Tokens.text, hvalues,
      sortKeys_map _ fun v => v.tokens.text, textFields_eq, tokensFields_eq, List.map_map, List.map_map]
    rfl
termination_by sizeOf j
decreasing_by
  · have hsize := List.sizeOf_lt_of_mem hitem
    simp_wf
    omega
  · have hsize := List.sizeOf_lt_of_mem hp
    obtain ⟨key, value⟩ := p
    simp_wf
    simp only [Prod.mk.sizeOf_spec] at hsize
    omega

/-! ## Reading a value back -/

/-- A character of a number or a literal. -/
def wordSign (c : Char) : Bool := numberSign c || c.isAlpha

/-- What may follow a value. -/
def valueEnds : List Char := [',', ']', '\x7d']

/-- How a value starts that is no word. -/
def openings : List Char := ['"', '[', '\x7b']

theorem valueEnds_no_word : ∀ c ∈ valueEnds, wordSign c = false := by simp [valueEnds, wordSign, numberSign]

theorem openings_no_word : ∀ c ∈ openings, wordSign c = false := by simp [openings, wordSign, numberSign]

/-- The text of a value that is one word: a literal or a number. -/
def Tokens.word : Tokens → Option (List Char)
  | .null => some ['n', 'u', 'l', 'l']
  | .bool b => some (if b then ['t', 'r', 'u', 'e'] else ['f', 'a', 'l', 's', 'e'])
  | .number token => some token.text.toList
  | _ => none

namespace Tokens

theorem text_of_word {t : Tokens} {w : List Char} (h : t.word = some w) : t.text = w := by
  cases t with
  | null => rw [text]; exact Option.some.inj h
  | bool b => rw [text]; exact Option.some.inj h
  | number token => rw [text]; exact Option.some.inj h
  | _ => cases h

theorem word_signs {t : Tokens} {w : List Char} (h : t.word = some w) :
    w ≠ [] ∧ ∀ c ∈ w, wordSign c = true := by
  cases t with
  | null =>
    obtain rfl := Option.some.inj h
    simp [wordSign]
  | bool b =>
    obtain rfl := Option.some.inj h
    cases b <;> simp [wordSign]
  | number token =>
    obtain rfl := Option.some.inj h
    refine ⟨token.nonempty, fun c hc => ?_⟩
    rw [wordSign, token.signs c hc, Bool.true_or]
  | _ => cases h

/-- No number is written like a literal: those have a letter of their own. -/
theorem number_ne_literal (token : NumberToken) {w : List Char} {c : Char} (hc : c ∈ w)
    (hsign : numberSign c = false) : token.text.toList ≠ w := by
  intro h
  rw [← h] at hc
  rw [token.signs c hc] at hsign
  cases hsign

theorem word_inj {t t' : Tokens} {w : List Char} (h : t.word = some w) (h' : t'.word = some w) : t = t' := by
  have hnull : ∀ token : NumberToken, token.text.toList ≠ ['n', 'u', 'l', 'l'] := fun token =>
    number_ne_literal token (c := 'u') (by simp) (by decide)
  have hbool : ∀ (token : NumberToken) (b : Bool),
      token.text.toList ≠ if b then ['t', 'r', 'u', 'e'] else ['f', 'a', 'l', 's', 'e'] := by
    intro token b
    cases b with
    | false => exact number_ne_literal token (c := 'l') (by simp) (by decide)
    | true => exact number_ne_literal token (c := 'r') (by simp) (by decide)
  cases t with
  | null =>
    cases t' with
    | null => rfl
    | bool b => cases b <;> simp [word, ← h] at h'
    | number token => exact absurd (Option.some.inj (h'.trans h.symm)) (hnull token)
    | _ => cases h'
  | bool b =>
    cases t' with
    | null => cases b <;> simp [word, ← h'] at h
    | bool b' =>
      rw [← h] at h'
      cases b <;> cases b' <;> simp [word] at h' ⊢
    | number token => exact absurd (Option.some.inj (h'.trans h.symm)) (hbool token b)
    | _ => cases h'
  | number token =>
    cases t' with
    | null => exact absurd (Option.some.inj (h.trans h'.symm)) (hnull token)
    | bool b => exact absurd (Option.some.inj (h.trans h'.symm)) (hbool token b)
    | number token' =>
      have htext := String.toList_inj.1 (Option.some.inj (h.trans h'.symm))
      obtain ⟨text, _, _⟩ := token
      obtain ⟨text', _, _⟩ := token'
      obtain rfl : text = text' := htext
      rfl
    | _ => cases h'
  | _ => cases h

/-- How a word starts. -/
theorem word_first {t : Tokens} {w : List Char} (h : t.word = some w) :
    ∃ c rest, t.text = c :: rest ∧ wordSign c = true := by
  obtain ⟨hne, hsigns⟩ := word_signs h
  rw [text_of_word h]
  cases w with
  | nil => exact absurd rfl hne
  | cons c w => exact ⟨c, w, rfl, hsigns c List.mem_cons_self⟩

/-- How a value starts that is no word. -/
theorem text_opening {t : Tokens} (h : t.word = none) : ∃ c ∈ openings, ∃ rest, t.text = c :: rest := by
  cases t with
  | str s => exact ⟨'"', by simp [openings], _, by rw [text, quote]; rfl⟩
  | arr items => exact ⟨'[', by simp [openings], _, by rw [text]; rfl⟩
  | obj fields => exact ⟨'\x7b', by simp [openings], _, by rw [text]; rfl⟩
  | _ => cases h

/-- No value starts like what follows a value. -/
theorem text_start {x : Char} (hx : x ∈ valueEnds) (t : Tokens) (r r' : List Char) : t.text ++ r ≠ x :: r' := by
  intro h
  cases hw : t.word with
  | some w =>
    obtain ⟨c, rest, htext, hc⟩ := word_first hw
    rw [htext] at h
    rw [(List.cons.inj h).1, valueEnds_no_word x hx] at hc
    cases hc
  | none =>
    obtain ⟨c, hc, rest, htext⟩ := text_opening hw
    rw [htext] at h
    have hcx : c = x := (List.cons.inj h).1
    rw [hcx] at hc
    simp only [openings, valueEnds, List.mem_cons, List.not_mem_nil, or_false] at hc hx
    rcases hc with rfl | rfl | rfl <;> simp at hx

/-- No word starts like a value that is none. -/
theorem word_ne_opening {t t' : Tokens} {w : List Char} (hw : t.word = some w) (hw' : t'.word = none)
    (r r' : List Char) : t.text ++ r ≠ t'.text ++ r' := by
  intro h
  obtain ⟨c, rest, htext, hc⟩ := word_first hw
  obtain ⟨d, hd, rest', htext'⟩ := text_opening hw'
  rw [htext, htext'] at h
  rw [(List.cons.inj h).1, openings_no_word d hd] at hc
  cases hc

/-- A word is told from any other value. -/
theorem word_reads {t : Tokens} {w : List Char} (hw : t.word = some w) :
    ReadsBefore (StartsIn valueEnds) text t := by
  rintro t' _ _ ⟨x, hx, r, rfl⟩ ⟨y, hy, r', rfl⟩ h
  cases hw' : t'.word with
  | some w' =>
    rw [text_of_word hw, text_of_word hw'] at h
    obtain ⟨hword, hr⟩ := eq_of_append_stop (word_signs hw).2 (word_signs hw').2 (valueEnds_no_word x hx)
      (valueEnds_no_word y hy) h
    rw [← hword] at hw'
    exact ⟨word_inj hw hw', hr⟩
  | none => exact absurd h (word_ne_opening hw hw' _ _)

theorem str_reads (s : String) : ReadsBefore (StartsIn valueEnds) text (.str s) := by
  intro t' r r' _ _ h
  cases t' with
  | str s' =>
    rw [text, text] at h
    obtain ⟨rfl, hr⟩ := quote_readable _ _ _ _ h
    exact ⟨rfl, hr⟩
  | arr items => simp [text, quote] at h
  | obj fields => simp [text, quote] at h
  | _ => exact absurd h.symm (word_ne_opening rfl rfl _ _)

theorem arr_reads {items : List Tokens} (hitems : ∀ t ∈ items, ReadsBefore (StartsIn valueEnds) text t) :
    ReadsBefore (StartsIn valueEnds) text (.arr items) := by
  intro t' r r' _ _ h
  cases t' with
  | arr items' =>
    rw [text, text, textItems_eq, textItems_eq] at h
    have hnarrow : ∀ t ∈ items, ReadsBefore (StartsIn [',', ']']) text t :=
      fun t ht => (hitems t ht).narrow (by simp [valueEnds])
    obtain ⟨rfl, hr⟩ := separated_reads (by decide) (text_start (by simp [valueEnds])) hnarrow (List.cons.inj h).2
    exact ⟨rfl, hr⟩
  | str s => simp [text, quote] at h
  | obj fields => simp [text] at h
  | _ => exact absurd h.symm (word_ne_opening rfl rfl _ _)

/-- An object is told from any other one, whatever follows. -/
theorem fields_read {fields : List (String × Tokens)}
    (hfields : ∀ p ∈ fields, ReadsBefore (StartsIn valueEnds) text p.2) {fields' : List (String × Tokens)}
    {r r' : List Char} (h : (Tokens.obj fields).text ++ r = (Tokens.obj fields').text ++ r') :
    fields = fields' ∧ r = r' := by
  rw [text, text, textFields_eq, textFields_eq] at h
  have hentries : ∀ p ∈ fields, ReadsBefore (StartsIn [',', '\x7d']) fieldText p := fun p hp =>
    ReadsBefore.pair ':' quote_readable ((hfields p hp).narrow (by simp [valueEnds]))
  refine separated_reads (by decide) ?_ hentries (List.cons.inj h).2
  intro p r r'
  simp [fieldText, quote]

/-- **A value is told from the text**, before a comma or a closing bracket. -/
theorem text_reads (t : Tokens) : ReadsBefore (StartsIn valueEnds) text t := by
  cases t with
  | null => exact word_reads rfl
  | bool b => exact word_reads rfl
  | number token => exact word_reads rfl
  | str s => exact str_reads s
  | arr items => exact arr_reads fun item hitem => text_reads item
  | obj fields =>
    have hfields : ∀ p ∈ fields, ReadsBefore (StartsIn valueEnds) text p.2 := fun p hp => text_reads p.2
    intro t' r r' _ _ h
    cases t' with
    | obj fields' =>
      obtain ⟨rfl, hr⟩ := fields_read hfields h
      exact ⟨rfl, hr⟩
    | str s => simp [text, quote] at h
    | arr items => simp [text] at h
    | _ => exact absurd h.symm (word_ne_opening rfl rfl _ _)
termination_by sizeOf t
decreasing_by
  · have hsize := List.sizeOf_lt_of_mem hitem
    simp_wf
    omega
  · have hsize := List.sizeOf_lt_of_mem hp
    obtain ⟨key, value⟩ := p
    simp_wf
    simp only [Prod.mk.sizeOf_spec] at hsize
    omega

/-- No object is written as the beginning of another. -/
theorem obj_readable : Readable fun fields => (Tokens.obj fields).text :=
  fun _ _ _ _ h => fields_read (fun p _ => text_reads p.2) h

end Tokens

theorem canonicalChars_obj (fields : Dict String Json) :
    ∃ sorted, (Json.obj fields).normal.tokens = .obj sorted ∧
      canonicalChars (.obj fields) = (Tokens.obj sorted).text := by
  have h := canonicalChars_eq (.obj fields)
  rw [Json.normal, Json.tokens] at h ⊢
  exact ⟨_, rfl, h⟩

/-- **The hashed text is unambiguous.** Two pairs of objects with one hashed
text are equal up to the order of keys. -/
theorem preimage_unambiguous {header payload header' payload' : Dict String Json}
    (h : canonicalJson (.obj header) ++ "::" ++ canonicalJson (.obj payload) =
      canonicalJson (.obj header') ++ "::" ++ canonicalJson (.obj payload')) :
    (Json.obj header).normal.tokens = (Json.obj header').normal.tokens ∧
      (Json.obj payload).normal.tokens = (Json.obj payload').normal.tokens := by
  obtain ⟨fields, hheader, hchars⟩ := canonicalChars_obj header
  obtain ⟨fields', hheader', hchars'⟩ := canonicalChars_obj header'
  obtain ⟨rest, hpayload, hrest⟩ := canonicalChars_obj payload
  obtain ⟨rest', hpayload', hrest'⟩ := canonicalChars_obj payload'
  have htext := congrArg String.toList h
  unfold canonicalJson at htext
  simp only [String.toList_append, String.toList_ofList, List.append_assoc, hchars, hchars', hrest, hrest'] at htext
  obtain ⟨rfl, htail⟩ := Tokens.obj_readable _ _ _ _ htext
  -- the payload, and nothing after it
  have hlast := List.append_cancel_left htail
  rw [← List.append_nil (Tokens.text (.obj rest)), ← List.append_nil (Tokens.text (.obj rest'))] at hlast
  obtain ⟨rfl, -⟩ := Tokens.obj_readable _ _ _ _ hlast
  exact ⟨hheader.trans hheader'.symm, hpayload.trans hpayload'.symm⟩

/-- The separator inside a key and a value, and the keys in another order. -/
theorem preimage_unambiguous_reordered :
    (Json.obj [("n", .int 1), ("a::", .str "\x7d::")]).normal.tokens =
        (Json.obj [("a::", .str "\x7d::"), ("n", .int 1)]).normal.tokens ∧
      (Json.obj []).normal.tokens = (Json.obj []).normal.tokens :=
  preimage_unambiguous (by decide +kernel)

end Mdrj.L1
