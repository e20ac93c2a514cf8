import Mathlib

/-!
# Reading escaped text

Texts with marks and delimiters, read from the left.

Results:
* `splitAt?_append`: a word that does not have the delimiter is read up to it.
* `escape_eq_self_iff`: a word escapes to itself exactly when it has no sign that
  is escaped.
* `readEscaped_escape`: an escaped word is read back up to the closing sign,
  where the mark and the closing sign are escaped.
* `readItems_separated`: a list of readable words with a separator, up to a
  closing sign, is read back.
* `readAllLines_joinLines`: what lines with their ends say is read back, if none
  has an end in it and each is read back alone.
-/
namespace Mdrj.Core

variable {α σ : Type}

/-! ## Escapes -/

/-- A code for the signs that may not stand for themselves: `mark` and a
letter. -/
structure Escaping (σ : Type) where
  mark : σ
  close : σ
  code : σ → Option σ
  decode : σ → Option σ
  mark_coded : (code mark).isSome = true
  close_coded : (code close).isSome = true
  decodes : ∀ c letter, code c = some letter → decode letter = some c

namespace Escaping
variable (e : Escaping σ)

def word (c : σ) : List σ :=
  match e.code c with
  | some letter => [e.mark, letter]
  | none => [c]

def escape (text : List σ) : List σ := text.flatMap e.word

theorem mark_ne_close {c : σ} (hc : e.code c = none) : c ≠ e.mark ∧ c ≠ e.close := by
  refine ⟨fun h => ?_, fun h => ?_⟩
  · have hmark := e.mark_coded
    rw [← h, hc] at hmark
    cases hmark
  · have hclose := e.close_coded
    rw [← h, hc] at hclose
    cases hclose

theorem length_word (c : σ) : (e.word c).length = if (e.code c).isSome then 2 else 1 := by
  unfold word
  cases e.code c <;> rfl

theorem length_le_escape (text : List σ) : text.length ≤ (e.escape text).length := by
  induction text with
  | nil => exact Nat.le_refl _
  | cons c text ih =>
    unfold escape at ih ⊢
    rw [List.flatMap_cons, List.length_append, List.length_cons, e.length_word]
    split <;> omega

/-- **A text stands for itself** exactly if it has no coded sign. -/
theorem escape_eq_self_iff {text : List σ} : e.escape text = text ↔ ∀ c ∈ text, e.code c = none := by
  induction text with
  | nil => exact ⟨fun _ c hc => absurd hc List.not_mem_nil, fun _ => rfl⟩
  | cons c text ih =>
    rw [List.forall_mem_cons, ← ih]
    have hcons : e.escape (c :: text) = e.word c ++ e.escape text := List.flatMap_cons
    rw [hcons]
    cases hcode : e.code c with
    | none =>
      have hword : e.word c = [c] := by unfold word; rw [hcode]
      rw [hword, List.singleton_append, List.cons.injEq]
      simp
    | some letter =>
      -- the coded sign makes the text longer
      refine ⟨fun h => ?_, fun h => (by cases h.1)⟩
      have hlen := congrArg List.length h
      have hle := e.length_le_escape text
      rw [List.length_append, e.length_word, hcode, List.length_cons] at hlen
      simp only [Option.isSome_some, if_true] at hlen
      omega

/-- A sign that is escaped, and is neither a mark nor a letter, does not show. -/
theorem not_mem_escape {c : σ} (hcoded : (e.code c).isSome = true) (hmark : c ≠ e.mark)
    (hletter : ∀ d, e.code d ≠ some c) (text : List σ) : c ∉ e.escape text := by
  intro hc
  obtain ⟨d, -, hd⟩ := List.mem_flatMap.1 hc
  unfold word at hd
  cases hcode : e.code d with
  | some letter =>
    rw [hcode] at hd
    rcases List.mem_cons.1 hd with heq | heq
    · exact hmark heq
    · exact hletter d (by rw [hcode, List.mem_singleton.1 heq])
  | none =>
    rw [hcode] at hd
    rw [List.mem_singleton.1 hd, hcode] at hcoded
    cases hcoded

variable [DecidableEq σ]

/-- The text up to the closing sign, and what follows it. -/
def readEscaped : List σ → Option (List σ × List σ)
  | [] => none
  | [c] => if c = e.close then some ([], []) else none
  | c :: d :: text =>
    if c = e.close then some ([], d :: text)
    else if c = e.mark then
      match e.decode d, readEscaped text with
      | some original, some (word, rest) => some (original :: word, rest)
      | _, _ => none
    else (readEscaped (d :: text)).map fun p => (c :: p.1, p.2)

theorem readEscaped_close (rest : List σ) : e.readEscaped (e.close :: rest) = some ([], rest) := by
  cases rest with
  | nil =>
    unfold readEscaped
    exact if_pos rfl
  | cons c rest =>
    unfold readEscaped
    exact if_pos rfl

/-- One escaped sign. The mark is not the closing sign. -/
theorem readEscaped_word (hne : e.mark ≠ e.close) (c : σ) {text : List σ} (htext : text ≠ []) :
    e.readEscaped (e.word c ++ text) = (e.readEscaped text).map fun p => (c :: p.1, p.2) := by
  unfold word
  cases hcode : e.code c with
  | some letter =>
    rw [List.cons_append, List.singleton_append, readEscaped, if_neg hne, if_pos rfl, e.decodes c letter hcode]
    cases e.readEscaped text with
    | none => rfl
    | some p => rfl
  | none =>
    obtain ⟨hmark, hclose⟩ := e.mark_ne_close hcode
    cases text with
    | nil => exact absurd rfl htext
    | cons d text =>
      rw [List.singleton_append, readEscaped, if_neg hclose, if_neg hmark]

/-- **An escaped text is read back.** -/
theorem readEscaped_escape (hne : e.mark ≠ e.close) (text rest : List σ) :
    e.readEscaped (e.escape text ++ e.close :: rest) = some (text, rest) := by
  induction text with
  | nil => exact e.readEscaped_close rest
  | cons c text ih =>
    unfold escape at ih ⊢
    rw [List.flatMap_cons, List.append_assoc, e.readEscaped_word hne c (by simp), ih]
    rfl

end Escaping

/-! ## Words and lists -/

/-- The text before the first `c`, and after it. -/
def splitAt? [DecidableEq σ] (c : σ) : List σ → Option (List σ × List σ)
  | [] => none
  | d :: text => if d = c then some ([], text) else (splitAt? c text).map fun p => (d :: p.1, p.2)

theorem splitAt?_append [DecidableEq σ] {c : σ} : ∀ {word : List σ}, c ∉ word → ∀ rest,
    splitAt? c (word ++ c :: rest) = some (word, rest)
  | [], _, rest => if_pos rfl
  | d :: word, h, rest => by
    rw [List.mem_cons, not_or] at h
    rw [List.cons_append, splitAt?, if_neg fun heq => h.1 heq.symm, splitAt?_append h.2]
    rfl

/-- `text.split(c, n)`: at most `n` cuts. -/
def splitMax [DecidableEq σ] (c : σ) : Nat → List σ → List (List σ)
  | 0, text => [text]
  | n + 1, text =>
    match splitAt? c text with
    | some (word, rest) => word :: splitMax c n rest
    | none => [text]

theorem splitMax_append [DecidableEq σ] {c : σ} {word : List σ} (h : c ∉ word) (n : Nat) (rest : List σ) :
    splitMax c (n + 1) (word ++ c :: rest) = word :: splitMax c n rest := by
  rw [splitMax, splitAt?_append h]

/-- Words with a separator between them, up to a closing sign; `fuel` bounds
their number. -/
def readItems [DecidableEq σ] (read : List σ → Option (α × List σ)) (sep close : σ) : Nat → List σ → Option (List α × List σ)
  | 0, _ => none
  | fuel + 1, text =>
    match read text with
    | some (a, c :: rest) =>
      if c = close then some ([a], rest)
      else if c = sep then (readItems read sep close fuel rest).map fun p => (a :: p.1, p.2)
      else none
    | _ => none

theorem readItems_fuel [DecidableEq σ] {read : List σ → Option (α × List σ)} {enc : α → List σ} {sep close : σ}
    (hne : sep ≠ close) : ∀ {items : List α}, items ≠ [] →
    (∀ a ∈ items, ∀ c, c = sep ∨ c = close → ∀ rest, read (enc a ++ c :: rest) = some (a, c :: rest)) →
      ∀ {fuel : Nat}, items.length ≤ fuel → ∀ rest,
        readItems read sep close fuel (List.intercalate [sep] (items.map enc) ++ close :: rest) = some (items, rest)
  | [], h, _, _, _, _ => absurd rfl h
  | [a], _, hread, 0, hfuel, _ => absurd hfuel (by simp)
  | [a], _, hread, fuel + 1, hfuel, rest => by
    have hone : List.intercalate [sep] ([a].map enc) = enc a := by simp
    rw [hone, readItems, hread a List.mem_cons_self close (.inr rfl) rest]
    exact if_pos rfl
  | a :: b :: items, _, hread, 0, hfuel, _ => absurd hfuel (by simp)
  | a :: b :: items, _, hread, fuel + 1, hfuel, rest => by
    have ih : readItems read sep close fuel (List.intercalate [sep] ((b :: items).map enc) ++ close :: rest) =
        some (b :: items, rest) :=
      readItems_fuel hne (List.cons_ne_nil b items)
        (fun c hc => hread c (List.mem_cons_of_mem a hc)) (Nat.le_of_succ_le_succ hfuel) rest
    rw [List.map_cons, List.map_cons, List.intercalate_cons_cons, ← List.map_cons, List.append_assoc,
      List.append_assoc, List.singleton_append, readItems,
      hread a List.mem_cons_self sep (.inl rfl) _]
    dsimp only
    rw [if_neg hne, if_pos rfl, ih]
    rfl

/-- A list of words that are not empty is not longer than its text. -/
theorem length_le_intercalate (sep : σ) : ∀ {words : List (List σ)}, (∀ word ∈ words, word ≠ []) →
    words.length ≤ (List.intercalate [sep] words).length
  | [], _ => Nat.le_refl _
  | [a], h => by
    have ha : 1 ≤ a.length := List.length_pos_of_ne_nil (h a List.mem_cons_self)
    simpa using ha
  | a :: b :: words, h => by
    have ih : (b :: words).length ≤ (List.intercalate [sep] (b :: words)).length :=
      length_le_intercalate sep fun word hword => h word (List.mem_cons_of_mem a hword)
    rw [List.intercalate_cons_cons, List.length_append, List.length_append, List.length_cons, List.length_singleton]
    omega

/-- A list of one word at least is read back, if each word is, before the
separator and before the closing sign. -/
theorem readItems_separated [DecidableEq σ] {read : List σ → Option (α × List σ)} {enc : α → List σ} {sep close : σ}
    (hne : sep ≠ close) {items : List α} (hitems : items ≠ []) (henc : ∀ a ∈ items, enc a ≠ [])
    (hread : ∀ a ∈ items, ∀ c, c = sep ∨ c = close → ∀ rest, read (enc a ++ c :: rest) = some (a, c :: rest))
    (rest : List σ) :
    readItems read sep close (List.intercalate [sep] (items.map enc) ++ close :: rest).length
      (List.intercalate [sep] (items.map enc) ++ close :: rest) = some (items, rest) := by
  have hlen : (items.map enc).length ≤ (List.intercalate [sep] (items.map enc)).length := by
    refine length_le_intercalate sep fun word hword => ?_
    obtain ⟨a, ha, rfl⟩ := List.mem_map.1 hword
    exact henc a ha
  rw [List.length_map] at hlen
  refine readItems_fuel hne hitems hread ?_ rest
  rw [List.length_append]
  omega

/-- A sign that is neither the separator nor in a word does not show. -/
theorem not_mem_intercalate {c sep : σ} (hne : c ≠ sep) : ∀ {words : List (List σ)}, (∀ word ∈ words, c ∉ word) →
    c ∉ List.intercalate [sep] words
  | [], _ => List.not_mem_nil
  | [a], h => by simpa using h a List.mem_cons_self
  | a :: b :: words, h => by
    have ih : c ∉ List.intercalate [sep] (b :: words) :=
      not_mem_intercalate hne fun word hword => h word (List.mem_cons_of_mem a hword)
    rw [List.intercalate_cons_cons, List.mem_append, List.mem_append, List.mem_singleton, not_or, not_or]
    exact ⟨⟨h a List.mem_cons_self, hne⟩, ih⟩

/-! ## Lines -/

/-- The lines, each with its end. -/
def joinLines (eol : σ) (lines : List (List σ)) : List σ := lines.flatMap fun line => line ++ [eol]

theorem joinLines_cons (eol : σ) (line : List σ) (lines : List (List σ)) :
    joinLines eol (line :: lines) = line ++ eol :: joinLines eol lines := by
  unfold joinLines
  rw [List.flatMap_cons, List.append_assoc]
  rfl

theorem joinLines_append (eol : σ) (a b : List (List σ)) :
    joinLines eol (a ++ b) = joinLines eol a ++ joinLines eol b := List.flatMap_append

/-- The lines with ends between them, and one at the end if there is a line. -/
theorem joinLines_eq (eol : σ) : ∀ lines : List (List σ),
    List.intercalate [eol] lines ++ (if lines.isEmpty then [] else [eol]) = joinLines eol lines
  | [] => rfl
  | [line] => by simp [joinLines]
  | a :: b :: lines => by
    have ih := joinLines_eq eol (b :: lines)
    rw [List.intercalate_cons_cons, joinLines_cons, ← ih, List.append_assoc, List.append_assoc]
    rfl

theorem mapM_iff_forall₂ {read : List σ → Option α} {lines : List (List σ)} {meant : List α} :
    lines.mapM read = some meant ↔ List.Forall₂ (fun line a => read line = some a) lines meant := by
  induction lines generalizing meant with
  | nil =>
    rw [List.forall₂_nil_left_iff]
    exact ⟨fun h => (Option.some.inj h).symm, fun h => congrArg some h.symm⟩
  | cons line lines ih =>
    rw [List.mapM_cons, List.forall₂_cons_left_iff]
    constructor
    · intro h
      obtain ⟨a, ha, hrest⟩ := Option.bind_eq_some_iff.1 h
      obtain ⟨as, has, heq⟩ := Option.bind_eq_some_iff.1 hrest
      exact ⟨a, as, ha, ih.1 has, (Option.some.inj heq).symm⟩
    · rintro ⟨a, as, ha, has, rfl⟩
      rw [ha, ih.2 has]
      rfl

variable [DecidableEq σ]

/-- The lines of a text, if its last line is ended. -/
def textLines (eol : σ) (text : List σ) : Option (List (List σ)) :=
  let lines := text.splitOn eol
  if lines.getLast? = some [] then some lines.dropLast else none

/-- **Lines without an end in them are read back.** -/
theorem textLines_joinLines {eol : σ} {lines : List (List σ)} (h : ∀ line ∈ lines, eol ∉ line) :
    textLines eol (joinLines eol lines) = some lines := by
  have hsplit : (joinLines eol lines).splitOn eol = lines ++ [[]] := by
    induction lines with
    | nil => exact List.splitOn_nil eol
    | cons line lines ih =>
      rw [joinLines_cons, List.splitOn_append_cons_self_of_not_mem (h line List.mem_cons_self),
        ih fun l hl => h l (List.mem_cons_of_mem line hl)]
      rfl
  unfold textLines
  dsimp only
  rw [hsplit, List.getLast?_concat, if_pos rfl, List.dropLast_concat]

/-- What the lines of a text say, each read alone. -/
def readAllLines (eol : σ) (read : List σ → Option α) (text : List σ) : Option (List α) :=
  (textLines eol text).bind fun lines => lines.mapM read

/-- The line is one line, and says `a`. -/
def Says (eol : σ) (read : List σ → Option α) (line : List σ) (a : α) : Prop := eol ∉ line ∧ read line = some a

/-- **Lines are read together as they are read alone.** -/
theorem readAllLines_joinLines {eol : σ} {read : List σ → Option α} {lines : List (List σ)} {meant : List α}
    (h : List.Forall₂ (Says eol read) lines meant) : readAllLines eol read (joinLines eol lines) = some meant := by
  have hlines : (∀ line ∈ lines, eol ∉ line) ∧ lines.mapM read = some meant := by
    rw [mapM_iff_forall₂]
    exact (List.forall₂_and_left lines meant).1 h
  unfold readAllLines
  rw [textLines_joinLines hlines.1, Option.bind_some, hlines.2]

end Mdrj.Core
