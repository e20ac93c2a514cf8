import Mathlib.Data.List.Basic

/-!
# Joined lists

A list of words joined by a separator is determined by the text, when the
words are not empty and hold no sign the separator starts with.
-/
namespace Mdrj.Core

variable {α : Type} {sign : α} {rest : List α}

/-- Words that a separator beginning with `sign` keeps apart. -/
def Apart (sign : α) (words : List (List α)) : Prop := ∀ word ∈ words, word ≠ [] ∧ sign ∉ word

/-- Up to the first sign, two texts have the same word. -/
theorem append_sign_inj {word word' more more' : List α} (hword : sign ∉ word) (hword' : sign ∉ word')
    (h : word ++ sign :: more = word' ++ sign :: more') : word = word' ∧ more = more' := by
  induction word generalizing word' with
  | nil =>
    cases word' with
    | nil => exact ⟨rfl, (List.cons.inj h).2⟩
    | cons b word' => exact absurd (by rw [(List.cons.inj h).1]; exact List.mem_cons_self) hword'
  | cons a word ih =>
    cases word' with
    | nil => exact absurd (by rw [(List.cons.inj h).1]; exact List.mem_cons_self) hword
    | cons b word' =>
      obtain ⟨rfl, htail⟩ := List.cons.inj h
      obtain ⟨rfl, hmore⟩ := ih (fun hmem => hword (List.mem_cons_of_mem _ hmem))
        (fun hmem => hword' (List.mem_cons_of_mem _ hmem)) htail
      exact ⟨rfl, hmore⟩

theorem joined_injective : ∀ {words words' : List (List α)}, Apart sign words → Apart sign words' →
    List.intercalate (sign :: rest) words = List.intercalate (sign :: rest) words' → words = words'
  | [], [], _, _, _ => rfl
  | [], [w], _, h', heq => absurd (by simpa using heq.symm) (h' w (by simp)).1
  | [], w :: v :: ws, _, h', heq => by
    rw [List.intercalate_cons_cons] at heq
    simp at heq
  | [w], [], h, _, heq => absurd (by simpa using heq) (h w (by simp)).1
  | w :: v :: ws, [], h, _, heq => by
    rw [List.intercalate_cons_cons] at heq
    simp at heq
  | [w], [w'], _, _, heq => by simpa using heq
  | [w], w' :: v' :: ws', h, _, heq => by
    rw [List.intercalate_cons_cons, List.intercalate_singleton] at heq
    refine absurd ?_ (h w (by simp)).2
    rw [heq]
    simp
  | w :: v :: ws, [w'], _, h', heq => by
    rw [List.intercalate_cons_cons, List.intercalate_singleton] at heq
    refine absurd ?_ (h' w' (by simp)).2
    rw [← heq]
    simp
  | w :: v :: ws, w' :: v' :: ws', h, h', heq => by
    rw [List.intercalate_cons_cons, List.intercalate_cons_cons, List.append_assoc, List.append_assoc] at heq
    obtain ⟨rfl, hmore⟩ := append_sign_inj (h w List.mem_cons_self).2 (h' w' List.mem_cons_self).2 heq
    have htail := joined_injective (fun word hw => h word (List.mem_cons_of_mem _ hw))
      (fun word hw => h' word (List.mem_cons_of_mem _ hw)) (List.append_cancel_left hmore)
    rw [htail]

end Mdrj.Core
