import Mathlib
import Mdrj.Core.Codes
import Mdrj.L1Encoding.Event

/-!
# What the hashed text tells

An event id is the digest of a text, the canonical JSON of the header and of
the payload. Strings, lists of strings and integers can be read back from
canonical JSON, so two events with one hashed text agree on their parents
and, up to the order of its entries, on their clock. (Timestamps are not
read back: all that matters is that their text has no comma.)

Results:
* `quote_readable`: quoted strings can be read back.
* `hashedText_inj`: the hashed text determines the parents and the clock.
-/
namespace Mdrj.L1
open Mdrj.Core

/-! ## Strings -/

def unhexDigit (c : Char) : Nat := if c.toNat < 58 then c.toNat - 48 else c.toNat - 87

def unhex4 (a b c d : Char) : Nat :=
  unhexDigit a * 4096 + unhexDigit b * 256 + unhexDigit c * 16 + unhexDigit d

/-- The character a short escape stands for. -/
def unescapeShort (c : Char) : Char :=
  if c = 'n' then '\n' else if c = 'r' then '\r' else if c = 't' then '\t'
  else if c = 'b' then Char.ofNat 8 else if c = 'f' then Char.ofNat 12 else c

/-- Reads one character of a JSON string. -/
def unescape : List Char → Option (Char × List Char)
  | '\\' :: 'u' :: a :: b :: c :: d :: rest =>
    let n := unhex4 a b c d
    if 0xd800 ≤ n ∧ n < 0xdc00 then
      -- a surrogate pair
      match rest with
      | _ :: _ :: a :: b :: c :: d :: rest =>
        some (Char.ofNat (0x10000 + (n - 0xd800) * 1024 + (unhex4 a b c d - 0xdc00)), rest)
      | _ => none
    else some (Char.ofNat n, rest)
  | '\\' :: c :: rest => some (unescapeShort c, rest)
  | c :: rest => some (c, rest)
  | [] => none

theorem unhexDigit_hexDigit {k : Nat} (hk : k < 16) : unhexDigit (Sha256.hexDigit k) = k := by
  have hall : ∀ k : Fin 16, unhexDigit (Sha256.hexDigit k) = k := by decide
  exact hall ⟨k, hk⟩

/-- The four digits of `hex4`. -/
theorem hex4_eq (n : Nat) : hex4 n = [Sha256.hexDigit (n / 4096), Sha256.hexDigit (n / 256 % 16),
    Sha256.hexDigit (n / 16 % 16), Sha256.hexDigit (n % 16)] := rfl

theorem unhex4_hex4 {n : Nat} (hn : n < 0x10000) :
    unhex4 (Sha256.hexDigit (n / 4096)) (Sha256.hexDigit (n / 256 % 16)) (Sha256.hexDigit (n / 16 % 16))
      (Sha256.hexDigit (n % 16)) = n := by
  unfold unhex4
  rw [unhexDigit_hexDigit (by omega), unhexDigit_hexDigit (by omega), unhexDigit_hexDigit (by omega),
    unhexDigit_hexDigit (by omega)]
  omega

/-- A character is no surrogate. -/
theorem char_range (c : Char) : c.toNat < 0xd800 ∨ 0xdfff < c.toNat ∧ c.toNat < 0x110000 := by
  have h := c.valid
  unfold UInt32.isValidChar Nat.isValidChar at h
  exact h

/-- What `escapeChar` writes: a short escape, the character itself, or one or
two `\u` escapes. -/
theorem escapeChar_cases (c : Char) :
    (∃ x, x ≠ 'u' ∧ unescapeShort x = c ∧ escapeChar c = ['\\', x]) ∨
    (c ≠ '"' ∧ c ≠ '\\' ∧ escapeChar c = [c]) ∨
    (c.toNat < 0x10000 ∧ escapeChar c = ['\\', 'u'] ++ hex4 c.toNat) ∨
    (0x10000 ≤ c.toNat ∧ escapeChar c = ['\\', 'u'] ++ hex4 (0xd800 + (c.toNat - 0x10000) / 1024) ++
      ['\\', 'u'] ++ hex4 (0xdc00 + (c.toNat - 0x10000) % 1024)) := by
  have hchar : ∀ n, c.toNat = n → Char.ofNat n = c := by
    rintro n rfl
    exact Char.ofNat_toNat c
  unfold escapeChar
  dsimp only
  by_cases hquote : c = '"'
  · exact .inl ⟨'"', by decide, hquote.symm, if_pos hquote⟩
  rw [if_neg hquote]
  by_cases hslash : c = '\\'
  · exact .inl ⟨'\\', by decide, hslash.symm, if_pos hslash⟩
  rw [if_neg hslash]
  by_cases hline : c.toNat = 10
  · exact .inl ⟨'n', by decide, hchar 10 hline, if_pos hline⟩
  rw [if_neg hline]
  by_cases hreturn : c.toNat = 13
  · exact .inl ⟨'r', by decide, hchar 13 hreturn, if_pos hreturn⟩
  rw [if_neg hreturn]
  by_cases htab : c.toNat = 9
  · exact .inl ⟨'t', by decide, hchar 9 htab, if_pos htab⟩
  rw [if_neg htab]
  by_cases hback : c.toNat = 8
  · exact .inl ⟨'b', by decide, hchar 8 hback, if_pos hback⟩
  rw [if_neg hback]
  by_cases hfeed : c.toNat = 12
  · exact .inl ⟨'f', by decide, hchar 12 hfeed, if_pos hfeed⟩
  rw [if_neg hfeed]
  by_cases hascii : 32 ≤ c.toNat ∧ c.toNat ≤ 126
  · exact .inr (.inl ⟨hquote, hslash, if_pos hascii⟩)
  rw [if_neg hascii]
  by_cases hn : c.toNat < 0x10000
  · exact .inr (.inr (.inl ⟨hn, if_pos hn⟩))
  · exact .inr (.inr (.inr ⟨Nat.le_of_not_lt hn, if_neg hn⟩))

theorem unescape_escapeChar (c : Char) (r : List Char) : unescape (escapeChar c ++ r) = some (c, r) := by
  have hofNat : Char.ofNat c.toNat = c := Char.ofNat_toNat c
  have hrange := char_range c
  rcases escapeChar_cases c with ⟨x, hx, hc, htext⟩ | ⟨-, hslash, htext⟩ | ⟨hn, htext⟩ | ⟨hn, htext⟩
  · rw [htext]
    simp [unescape, hx, hc]
  · rw [htext]
    simp [unescape, hslash]
  · rw [htext, hex4_eq]
    simp only [List.cons_append, List.nil_append, unescape, unhex4_hex4 hn]
    rw [if_neg (by omega), hofNat]
  · -- both halves of the surrogate pair are read
    rw [htext, hex4_eq, hex4_eq]
    simp only [List.cons_append, List.nil_append, unescape]
    rw [unhex4_hex4 (by omega), unhex4_hex4 (by omega), if_pos (by omega)]
    have hpair : 0x10000 + (0xd800 + (c.toNat - 0x10000) / 1024 - 0xd800) * 1024 +
        (0xdc00 + (c.toNat - 0x10000) % 1024 - 0xdc00) = c.toNat := by omega
    rw [hpair, hofNat]

theorem escapeChar_readable : Readable escapeChar := readable_of_reader unescape unescape_escapeChar

/-- No character is written as a bare quotation mark. -/
theorem escapeChar_start (c : Char) (r r' : List Char) : escapeChar c ++ r ≠ '"' :: r' := by
  rcases escapeChar_cases c with ⟨x, -, -, htext⟩ | ⟨hquote, -, htext⟩ | ⟨-, htext⟩ | ⟨-, htext⟩
  · simp [htext]
  · simp [htext, hquote]
  · simp [htext]
  · simp [htext]

theorem quote_readable : Readable quote := by
  have hbody := readable_flatMap (escapeChar_readable.before fun _ => True) escapeChar_start
    fun _ _ => trivial
  intro s s' r r' h
  unfold quote at h
  simp only [List.cons_append, List.cons.injEq, true_and] at h
  obtain ⟨hs, hr⟩ := hbody _ _ _ _ h
  exact ⟨String.toList_inj.1 hs, hr⟩

/-! ## Numbers -/

/-- A character of a number. -/
def numberSign (c : Char) : Bool :=
  c.isDigit || c ∈ ['+', '-', '.', 'e', 'N', 'a', 'I', 'n', 'f', 'i', 't', 'y']

/-- A character of a number, to be told from what may follow it. -/
def inNumber (c : Char) : Bool := c ≠ ',' && c ≠ '\x7d'

theorem inNumber_of_numberSign {c : Char} (h : numberSign c = true) : inNumber c = true := by
  unfold inNumber
  rw [Bool.and_eq_true, decide_eq_true_eq, decide_eq_true_eq]
  refine ⟨fun hc => ?_, fun hc => ?_⟩
  · rw [hc] at h
    revert h
    decide
  · rw [hc] at h
    revert h
    decide

theorem nat_signs (n : Nat) : ∀ c ∈ (toString n).toList, numberSign c = true := by
  intro c hc
  rw [Nat.toString_eq_repr, Nat.toList_repr] at hc
  unfold numberSign
  rw [Nat.isDigit_of_mem_toDigits (by decide) (by decide) hc, Bool.true_or]

theorem int_signs (n : Int) : ∀ c ∈ (toString n).toList, numberSign c = true := by
  intro c hc
  cases n with
  | ofNat m => exact nat_signs m c hc
  | negSucc m =>
    have htext : (toString (Int.negSucc m)).toList = '-' :: (toString (m + 1)).toList :=
      String.toList_append
    rw [htext] at hc
    rcases List.mem_cons.1 hc with rfl | hc
    · decide
    · exact nat_signs (m + 1) c hc

theorem int_readable : ReadableBefore (StartsIn [',', '\x7d']) fun n : Int => (toString n).toList := by
  refine readableBefore_of_injective inNumber ?_ ?_ (by simp [inNumber])
  · intro a b h
    exact Int.repr_injective (String.toList_inj.1 h)
  · intro n c hc
    exact inNumber_of_numberSign (int_signs n c hc)

theorem reprPos_signs (q : ℚ) : ∀ c ∈ (Flt.reprPos q).toList, numberSign c = true := by
  have happend : ∀ {l l' : List Char}, (∀ c ∈ l, numberSign c = true) → (∀ c ∈ l', numberSign c = true) →
      ∀ c ∈ l ++ l', numberSign c = true := by
    intro l l' hl hl' c hc
    exact (List.mem_append.1 hc).elim (hl c) (hl' c)
  have hzeros : ∀ k, ∀ c ∈ List.replicate k '0', numberSign c = true := by
    intro k c hc
    rw [List.eq_of_mem_replicate hc]
    decide
  have htake : ∀ n k, ∀ c ∈ (toString (n : Nat)).toList.take k, numberSign c = true :=
    fun n k c hc => nat_signs n c (List.mem_of_mem_take hc)
  have hdrop : ∀ n k, ∀ c ∈ (toString (n : Nat)).toList.drop k, numberSign c = true :=
    fun n k c hc => nat_signs n c (List.mem_of_mem_drop hc)
  unfold Flt.reprPos
  dsimp only
  split
  · split
    · rw [String.toList_ofList]
      exact happend (happend (by simp [numberSign]) (hzeros _)) (nat_signs _)
    · split
      · rw [String.toList_ofList]
        exact happend (happend (nat_signs _) (hzeros _)) (by simp [numberSign])
      · rw [String.toList_ofList]
        exact happend (happend (htake _ _) (by simp [numberSign])) (hdrop _ _)
  · rw [String.toList_ofList]
    refine happend (happend (happend (htake _ _) ?_) ?_) ?_
    · split
      · simp
      · exact happend (l := ['.']) (by simp [numberSign]) (hdrop _ _)
    · split <;> simp [numberSign]
    · split
      · exact happend (l := ['0']) (by simp [numberSign]) (nat_signs _)
      · exact nat_signs _

theorem token_signs (x : Flt) : ∀ c ∈ x.token.toList, numberSign c = true := by
  cases x with
  | nan => simp [Flt.token, numberSign]
  | negInf => simp [Flt.token, numberSign]
  | posInf => simp [Flt.token, numberSign]
  | fin q =>
    unfold Flt.token
    dsimp only
    split
    · simp [numberSign]
    · split
      · rw [String.toList_append]
        intro c hc
        rcases List.mem_append.1 hc with hc | hc
        · rw [List.mem_singleton.1 hc]
          decide
        · exact reprPos_signs _ c hc
      · exact reprPos_signs q

theorem token_inNumber (x : Flt) : ∀ c ∈ x.token.toList, inNumber c = true :=
  fun c hc => inNumber_of_numberSign (token_signs x c hc)

/-! ## The hashed text -/

/-- The text of a list of strings. -/
def stringsText (items : List String) : List Char := '[' :: (commaSeparated (items.map quote) ++ [']'])

/-- An entry of a clock. -/
def entryText (p : String × Int) : List Char := quote p.1 ++ ':' :: (toString p.2).toList

def sortedClock (clock : Dict String Int) : Dict String Int := clock.insertionSort fun a b => a.1 ≤ b.1

/-- The text of a clock. -/
def clockText (clock : Dict String Int) : List Char :=
  '\x7b' :: (commaSeparated ((sortedClock clock).map entryText) ++ ['\x7d'])

theorem stringsText_readable : Readable stringsText := by
  have hitems : Readable fun items : List String => commaSeparated (items.map quote) ++ [']'] := by
    refine readable_separated (quote_readable.before _) (by decide) ?_
    intro s r r'
    simp [quote]
  intro l l' r r' h
  exact hitems l l' r r' (List.cons.inj h).2

theorem entries_readable : Readable fun entries : List (String × Int) =>
    commaSeparated (entries.map entryText) ++ ['\x7d'] := by
  refine readable_separated (int_readable.pair ':' quote_readable) (by decide) ?_
  intro p r r'
  simp [entryText, quote]

theorem canonicalItems_str (items : List String) : canonicalItems (items.map .str) = items.map quote := by
  induction items with
  | nil => rfl
  | cons s items ih =>
    rw [List.map_cons, List.map_cons, canonicalItems, ih, canonicalChars]

theorem canonicalFields_int (clock : Dict String Int) :
    canonicalFields (clock.map fun p => (p.1, .int p.2)) = clock.map fun p => (p.1, (toString p.2).toList) := by
  induction clock with
  | nil => rfl
  | cons p clock ih =>
    rw [List.map_cons, List.map_cons, canonicalFields, ih, canonicalChars]

theorem canonicalChars_clock (clock : Dict String Int) :
    canonicalChars (.obj (clock.map fun p => (p.1, .int p.2))) = clockText clock := by
  have hsort : sortKeys (clock.map fun p => (p.1, (toString p.2).toList)) =
      (sortedClock clock).map fun p => (p.1, (toString p.2).toList) := by
    unfold sortKeys sortedClock
    symm
    apply List.map_insertionSort
    intro a _ b _
    exact Iff.rfl
  rw [canonicalChars, canonicalFields_int, hsort, List.map_map]
  rfl

theorem sortKeys_header (a b c d e : List Char) :
    sortKeys [("cls", a), ("source", b), ("ts_local", c), ("vclock", d), ("parents", e)] =
      [("cls", a), ("parents", e), ("source", b), ("ts_local", c), ("vclock", d)] := by
  have h1 : ("cls" : String) ≤ "parents" := by decide
  have h2 : ¬ ("source" : String) ≤ "parents" := by decide
  have h3 : ¬ ("ts_local" : String) ≤ "parents" := by decide
  have h4 : ¬ ("vclock" : String) ≤ "parents" := by decide
  have h5 : ("source" : String) ≤ "ts_local" := by decide
  have h6 : ("ts_local" : String) ≤ "vclock" := by decide
  simp [sortKeys, List.insertionSort, List.orderedInsert, h1, h2, h3, h4, h5, h6]

/-- The fields of a header, by key. -/
theorem canonicalChars_header (cls : EventClass) (source : String) (tsLocal : Flt)
    (vclock : Dict String Int) (parents : List String) :
    canonicalChars (Event.header cls source tsLocal vclock parents) =
      '\x7b' :: (commaSeparated [quote "cls" ++ ':' :: quote cls.value,
        quote "parents" ++ ':' :: stringsText parents, quote "source" ++ ':' :: quote source,
        quote "ts_local" ++ ':' :: tsLocal.token.toList, quote "vclock" ++ ':' :: clockText vclock] ++
      ['\x7d']) := by
  unfold Event.header
  rw [canonicalChars]
  simp only [canonicalFields]
  rw [canonicalChars_clock, sortKeys_header]
  simp only [canonicalChars, canonicalItems_str]
  rfl

/-- What is hashed into the id of an event.
mirrors mdrj/utils.py:26-32 -/
def Event.hashedText (e : Event) : String :=
  canonicalJson (Event.header e.cls e.source e.tsLocal e.vclock e.parents) ++ "::" ++ canonicalJson e.payload

/-- The text of a header and what follows it, field by field. -/
theorem canonicalChars_header_append (cls : EventClass) (source : String) (ts : Flt)
    (vclock : Dict String Int) (parents : List String) (r : List Char) :
    canonicalChars (Event.header cls source ts vclock parents) ++ r =
      '\x7b' :: (quote "cls" ++ ':' :: (quote cls.value ++ ',' ::
        (quote "parents" ++ ':' :: (stringsText parents ++ ',' ::
          (quote "source" ++ ':' :: (quote source ++ ',' ::
            (quote "ts_local" ++ ':' :: (ts.token.toList ++ ',' ::
              (quote "vclock" ++ ':' :: (clockText vclock ++ '\x7d' :: r)))))))))) := by
  rw [canonicalChars_header]
  simp only [commaSeparated, List.intercalate_cons_cons, List.intercalate_singleton, List.append_assoc,
    List.cons_append, List.nil_append]

theorem field_inj {key : String} {t t' : List Char} (h : quote key ++ ':' :: t = quote key ++ ':' :: t') :
    t = t' := (List.cons.inj (List.append_cancel_left h)).2

theorem header_inj {cls cls' : EventClass} {source source' : String} {ts ts' : Flt}
    {vclock vclock' : Dict String Int} {parents parents' : List String} {r r' : List Char}
    (h : canonicalChars (Event.header cls source ts vclock parents) ++ r =
      canonicalChars (Event.header cls' source' ts' vclock' parents') ++ r') :
    parents = parents' ∧ vclock.Perm vclock' := by
  have hcomma : inNumber ',' = false := by decide
  rw [canonicalChars_header_append, canonicalChars_header_append] at h
  obtain ⟨-, h⟩ := quote_readable _ _ _ _ (field_inj (List.cons.inj h).2)
  obtain ⟨hparents, h⟩ := stringsText_readable _ _ _ _ (field_inj (List.cons.inj h).2)
  obtain ⟨-, h⟩ := quote_readable _ _ _ _ (field_inj (List.cons.inj h).2)
  obtain ⟨-, h⟩ := eq_of_append_stop (token_inNumber ts) (token_inNumber ts') hcomma hcomma
    (field_inj (List.cons.inj h).2)
  have hclock := field_inj (List.cons.inj h).2
  unfold clockText at hclock
  obtain ⟨hclock, -⟩ := entries_readable _ _ _ _ (List.cons.inj hclock).2
  have hsorted : (sortedClock vclock).Perm vclock := List.perm_insertionSort _ _
  have hsorted' : (sortedClock vclock').Perm vclock' := List.perm_insertionSort _ _
  rw [← hclock] at hsorted'
  exact ⟨hparents, hsorted.symm.trans hsorted'⟩

/-- **The hashed text determines the links.** Events with one hashed text have
the same parents and the same clock. -/
theorem hashedText_inj {e f : Event} (h : e.hashedText = f.hashedText) :
    e.parents = f.parents ∧ e.vclock.Perm f.vclock := by
  have hchars := congrArg String.toList h
  unfold Event.hashedText canonicalJson at hchars
  simp only [String.toList_append, String.toList_ofList, List.append_assoc] at hchars
  exact header_inj hchars

end Mdrj.L1
