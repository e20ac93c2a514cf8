import Mathlib.Data.List.Basic

/-!
# Texts that can be read back

A code writes values as words; it is readable when a value and the rest of
the text are determined by the text, whatever follows. A word without an end
of its own (a number) is readable before the signs that may follow it.

Results:
* `readable_of_reader`: a code with a reader is readable.
* `readable_flatMap`, `readable_separated`: lists of readable words, up to a
  closing sign, with or without a separator, are readable.
-/
namespace Mdrj.Core

variable {α β σ : Type}

def Readable (enc : α → List σ) : Prop := ∀ a b r r', enc a ++ r = enc b ++ r' → a = b ∧ r = r'

/-- Readable, if `next` holds of the rest of the text. -/
def ReadableBefore (next : List σ → Prop) (enc : α → List σ) : Prop :=
  ∀ a b r r', next r → next r' → enc a ++ r = enc b ++ r' → a = b ∧ r = r'

/-- The word of one value is told from that of any other, if `next` holds of
the rest of the text. -/
def ReadsBefore (next : List σ → Prop) (enc : α → List σ) (a : α) : Prop :=
  ∀ b r r', next r → next r' → enc a ++ r = enc b ++ r' → a = b ∧ r = r'

/-- The text starts with one of the signs. -/
def StartsIn (signs : List σ) (text : List σ) : Prop := ∃ x ∈ signs, ∃ rest, text = x :: rest

theorem Readable.before {enc : α → List σ} (h : Readable enc) (next : List σ → Prop) :
    ReadableBefore next enc :=
  fun a b r r' _ _ heq => h a b r r' heq

theorem ReadsBefore.narrow {signs signs' : List σ} {enc : α → List σ} {a : α}
    (h : ReadsBefore (StartsIn signs) enc a) (hsub : ∀ x ∈ signs', x ∈ signs) :
    ReadsBefore (StartsIn signs') enc a := by
  rintro b _ _ ⟨x, hx, r, rfl⟩ ⟨y, hy, r', rfl⟩ heq
  exact h b _ _ ⟨x, hsub x hx, r, rfl⟩ ⟨y, hsub y hy, r', rfl⟩ heq

theorem readable_of_reader {enc : α → List σ} (read : List σ → Option (α × List σ))
    (h : ∀ a r, read (enc a ++ r) = some (a, r)) : Readable enc := by
  intro a b r r' heq
  have hread := h a r
  rw [heq, h b r'] at hread
  exact ⟨(Prod.mk.inj (Option.some.inj hread)).1.symm, (Prod.mk.inj (Option.some.inj hread)).2.symm⟩

/-- Two stretches of a class of signs, each ended by a sign outside it. -/
theorem eq_of_append_stop {p : σ → Bool} {t t' r r' : List σ} {x y : σ} (ht : ∀ c ∈ t, p c = true)
    (ht' : ∀ c ∈ t', p c = true) (hx : p x = false) (hy : p y = false)
    (h : t ++ x :: r = t' ++ y :: r') : t = t' ∧ x :: r = y :: r' := by
  have hword : ∀ {t r : List σ} {x : σ}, (∀ c ∈ t, p c = true) → p x = false →
      (t ++ x :: r).takeWhile p = t := by
    intro t r x ht hx
    rw [List.takeWhile_append_of_pos ht, List.takeWhile_cons_of_neg (by rw [hx]; decide), List.append_nil]
  have heq : t = t' := by
    rw [← hword ht hx (r := r), h, hword ht' hy]
  subst heq
  exact ⟨rfl, List.append_cancel_left h⟩

/-- An injective code whose words have no sign that may follow them. -/
theorem readableBefore_of_injective {enc : α → List σ} (p : σ → Bool) (hinj : Function.Injective enc)
    (hword : ∀ a, ∀ c ∈ enc a, p c = true) {signs : List σ} (hsigns : ∀ c ∈ signs, p c = false) :
    ReadableBefore (StartsIn signs) enc := by
  rintro a b _ _ ⟨x, hx, r, rfl⟩ ⟨y, hy, r', rfl⟩ h
  obtain ⟨hab, hr⟩ := eq_of_append_stop (hword a) (hword b) (hsigns x hx) (hsigns y hy) h
  exact ⟨hinj hab, hr⟩

/-- One word after another. -/
theorem ReadsBefore.pair {next : List σ → Prop} {enc : α → List σ} {enc' : β → List σ} (sep : σ)
    (h : Readable enc) {p : α × β} (h' : ReadsBefore next enc' p.2) :
    ReadsBefore next (fun p : α × β => enc p.1 ++ sep :: enc' p.2) p := by
  intro b r r' hr hr' heq
  dsimp only at heq
  rw [List.append_assoc, List.append_assoc, List.cons_append, List.cons_append] at heq
  obtain ⟨hfst, hrest⟩ := h _ _ _ _ heq
  obtain ⟨hsnd, hr⟩ := h' _ _ _ hr hr' (List.cons.inj hrest).2
  exact ⟨Prod.ext hfst hsnd, hr⟩

theorem ReadableBefore.pair {next : List σ → Prop} {enc : α → List σ} {enc' : β → List σ} (sep : σ)
    (h : Readable enc) (h' : ReadableBefore next enc') :
    ReadableBefore next fun p : α × β => enc p.1 ++ sep :: enc' p.2 :=
  fun p => ReadsBefore.pair sep h (h' p.2)

section Lists
variable {enc : α → List σ} {next : List σ → Prop} {stop : σ}

/-- Words one after another, up to a sign that starts none of them, are told
from any others if each of them is. -/
theorem flatMap_reads (hstart : ∀ a r r', enc a ++ r ≠ stop :: r')
    (hnext : ∀ (l : List α) r, next (l.flatMap enc ++ stop :: r)) {l : List α}
    (henc : ∀ a ∈ l, ReadsBefore next enc a) {l' : List α} {r r' : List σ}
    (h : l.flatMap enc ++ [stop] ++ r = l'.flatMap enc ++ [stop] ++ r') : l = l' ∧ r = r' := by
  induction l generalizing l' with
  | nil =>
    cases l' with
    | nil => exact ⟨rfl, (List.cons.inj h).2⟩
    | cons b l' =>
      simp only [List.flatMap_cons, List.append_assoc] at h
      exact absurd h.symm (hstart b _ _)
  | cons a l ih =>
    cases l' with
    | nil =>
      simp only [List.flatMap_cons, List.append_assoc] at h
      exact absurd h (hstart a _ _)
    | cons b l' =>
      simp only [List.flatMap_cons, List.append_assoc, List.singleton_append] at h
      obtain ⟨rfl, htail⟩ := henc a List.mem_cons_self b _ _ (hnext l r) (hnext l' r') h
      obtain ⟨rfl, hr⟩ := ih (fun c hc => henc c (List.mem_cons_of_mem _ hc))
        (by simpa only [List.append_assoc, List.singleton_append] using htail)
      exact ⟨rfl, hr⟩

/-- Words one after another, up to a sign that starts none of them. -/
theorem readable_flatMap (henc : ReadableBefore next enc) (hstart : ∀ a r r', enc a ++ r ≠ stop :: r')
    (hnext : ∀ (l : List α) r, next (l.flatMap enc ++ stop :: r)) :
    Readable fun l : List α => l.flatMap enc ++ [stop] :=
  fun _ _ _ _ h => flatMap_reads hstart hnext (fun a _ => henc a) h

/-- The first word, and each of the others after a separator. -/
theorem intercalate_cons (sep : σ) (a : α) (l : List α) :
    List.intercalate [sep] ((a :: l).map enc) = enc a ++ l.flatMap fun b => sep :: enc b := by
  induction l generalizing a with
  | nil => simp [List.intercalate]
  | cons b l ih =>
    rw [List.map_cons, List.map_cons, List.intercalate_cons_cons, ← List.map_cons, ih b]
    simp

/-- Words with a separator between them, up to a closing sign, are told from
any others if each of them is. -/
theorem separated_reads {sep close : σ} (hsep : sep ≠ close) (hstart : ∀ a r r', enc a ++ r ≠ close :: r')
    {l : List α} (henc : ∀ a ∈ l, ReadsBefore (StartsIn [sep, close]) enc a) {l' : List α} {r r' : List σ}
    (h : List.intercalate [sep] (l.map enc) ++ [close] ++ r =
      List.intercalate [sep] (l'.map enc) ++ [close] ++ r') : l = l' ∧ r = r' := by
  have hnext : ∀ (l : List α) (r : List σ),
      StartsIn [sep, close] ((l.flatMap fun b => sep :: enc b) ++ close :: r) := by
    intro l r
    cases l with
    | nil => exact ⟨close, by simp, r, rfl⟩
    | cons b l => exact ⟨sep, by simp, _, rfl⟩
  cases l with
  | nil =>
    cases l' with
    | nil => exact ⟨rfl, (List.cons.inj h).2⟩
    | cons b l' =>
      rw [intercalate_cons] at h
      simp only [List.append_assoc] at h
      exact absurd h.symm (hstart b _ _)
  | cons a l =>
    cases l' with
    | nil =>
      rw [intercalate_cons] at h
      simp only [List.append_assoc] at h
      exact absurd h (hstart a _ _)
    | cons b l' =>
      have hword : ∀ c ∈ l, ReadsBefore (StartsIn [sep, close]) (fun c => sep :: enc c) c := by
        intro c hc d r r' hr hr' h
        exact henc c (List.mem_cons_of_mem _ hc) d r r' hr hr' (List.cons.inj h).2
      rw [intercalate_cons, intercalate_cons] at h
      simp only [List.append_assoc, List.singleton_append] at h
      obtain ⟨rfl, hrest⟩ := henc a List.mem_cons_self b _ _ (hnext l r) (hnext l' r') h
      obtain ⟨rfl, hr⟩ := flatMap_reads (fun a r r' h => hsep (List.cons.inj h).1) hnext hword
        (by simpa only [List.append_assoc, List.singleton_append] using hrest)
      exact ⟨rfl, hr⟩

/-- Words with a separator between them, up to a closing sign. -/
theorem readable_separated {sep close : σ} (henc : ReadableBefore (StartsIn [sep, close]) enc)
    (hsep : sep ≠ close) (hstart : ∀ a r r', enc a ++ r ≠ close :: r') :
    Readable fun l : List α => List.intercalate [sep] (l.map enc) ++ [close] :=
  fun _ _ _ _ h => separated_reads hsep hstart (fun a _ => henc a) h

end Lists
end Mdrj.Core
