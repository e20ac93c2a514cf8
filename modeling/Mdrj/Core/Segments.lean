import Mathlib.Data.List.Basic

/-!
# Segments

A text is read in segments: each ends at a stop sign, at a place where it is
cut, or with the text. Cutting a text more often cuts its segments further,
so the segments of a text that is cut are those of its uncut segments, one
after the other (`segments_cut`), and a text read in parts has the segments
of the whole, cut where the parts end (`segments_append`).
-/
namespace Mdrj.Core

variable {α : Type} (stop : α → Bool)

/-- The segments of a text that starts at a position, each with its own
position; `cut p` says that the text is cut at `p`. -/
def segments (cut : Nat → Bool) (position : Nat) : List α → List (Nat × List α)
  | [] => []
  | a :: text =>
    if stop a || cut (position + 1) then (position, [a]) :: segments cut (position + 1) text
    else
      match segments cut (position + 1) text with
      | [] => [(position, [a])]
      | (_, segment) :: rest => (position, a :: segment) :: rest

variable {stop} {cut cut' : Nat → Bool} {position : Nat}

theorem segments_eq_nil {text : List α} (h : segments stop cut position text = []) : text = [] := by
  cases text with
  | nil => rfl
  | cons a text =>
    rw [segments] at h
    split at h
    · cases h
    · split at h <;> cases h

/-- The first segment starts where the text does and is not empty. -/
theorem segments_first {text : List α} {p : Nat} {segment : List α} {rest : List (Nat × List α)}
    (h : segments stop cut position text = (p, segment) :: rest) : p = position ∧ segment ≠ [] := by
  cases text with
  | nil => cases h
  | cons a text =>
    rw [segments] at h
    split at h
    · obtain ⟨hfirst, -⟩ := List.cons.inj h
      obtain ⟨hp, hsegment⟩ := Prod.mk.inj hfirst
      exact ⟨hp.symm, by rw [← hsegment]; simp⟩
    · split at h
      · obtain ⟨hfirst, -⟩ := List.cons.inj h
        obtain ⟨hp, hsegment⟩ := Prod.mk.inj hfirst
        exact ⟨hp.symm, by rw [← hsegment]; simp⟩
      · obtain ⟨hfirst, -⟩ := List.cons.inj h
        obtain ⟨hp, hsegment⟩ := Prod.mk.inj hfirst
        exact ⟨hp.symm, by rw [← hsegment]; simp⟩

/-- Only the cuts inside the text matter. -/
theorem segments_congr {text : List α}
    (h : ∀ p, position < p → p < position + text.length → cut p = cut' p) :
    segments stop cut position text = segments stop cut' position text := by
  induction text generalizing position with
  | nil => rfl
  | cons a text ih =>
    have hrest : segments stop cut (position + 1) text = segments stop cut' (position + 1) text := by
      refine ih fun p hlow hhigh => h p (by omega) ?_
      rw [List.length_cons]
      omega
    cases text with
    | nil => simp [segments]
    | cons b text =>
      have hcut : cut (position + 1) = cut' (position + 1) := h _ (by omega) (by simp)
      generalize b :: text = text at hrest
      rw [segments, segments, hcut, hrest]

/-- A text read in two parts, cut between them. -/
theorem segments_append {first second : List α} (h : cut (position + first.length) = true) :
    segments stop cut position (first ++ second) =
      segments stop cut position first ++ segments stop cut (position + first.length) second := by
  induction first generalizing position with
  | nil => rfl
  | cons a first ih =>
    have hlength : position + 1 + first.length = position + (a :: first).length := by
      rw [List.length_cons]
      omega
    have hrest : segments stop cut (position + 1) (first ++ second) =
        segments stop cut (position + 1) first ++
          segments stop cut (position + 1 + first.length) second := by
      refine ih ?_
      rw [hlength]
      exact h
    rw [List.cons_append, segments, segments, hrest, hlength]
    split
    · rfl
    · next hnot =>
      cases hfirst : segments stop cut (position + 1) first with
      | nil =>
        -- then the cut is right here
        have hnil := segments_eq_nil hfirst
        rw [hnil, List.length_singleton] at h
        rw [h, Bool.or_true] at hnot
        exact absurd rfl hnot
      | cons s rest =>
        obtain ⟨p, segment⟩ := s
        rfl

/-- **Cutting cuts the segments.** -/
theorem segments_cut (text : List α) :
    segments stop cut position text =
      (segments stop (fun _ => false) position text).flatMap fun s => segments stop cut s.1 s.2 := by
  induction text generalizing position with
  | nil => rfl
  | cons a text ih =>
    have hrest : segments stop cut (position + 1) text =
        (segments stop (fun _ => false) (position + 1) text).flatMap
          fun s => segments stop cut s.1 s.2 := ih
    rw [segments, segments, Bool.or_false]
    by_cases hstop : stop a = true
    · rw [hstop, Bool.true_or, if_pos rfl, if_pos rfl, List.flatMap_cons, hrest]
      simp [segments, hstop]
    · rw [Bool.not_eq_true] at hstop
      rw [hstop, Bool.false_or, if_neg Bool.false_ne_true]
      cases hlines : segments stop (fun _ => false) (position + 1) text with
      | nil =>
        obtain rfl := segments_eq_nil hlines
        simp [segments, hstop]
      | cons line lines =>
        obtain ⟨p, segment⟩ := line
        obtain ⟨rfl, hne⟩ := segments_first hlines
        rw [hlines, List.flatMap_cons] at hrest
        dsimp only at hrest ⊢
        rw [List.flatMap_cons, segments, hstop, Bool.false_or, hrest]
        split
        · rfl
        · cases hfirst : segments stop cut (position + 1) segment with
          | nil => exact absurd (segments_eq_nil hfirst) hne
          | cons s rest =>
            obtain ⟨p, piece⟩ := s
            rfl

/-- Where the segments of a text lie. -/
theorem segments_range {text : List α} {s : Nat × List α} (h : s ∈ segments stop cut position text) :
    position ≤ s.1 ∧ s.1 < position + text.length := by
  induction text generalizing position s with
  | nil => exact absurd h List.not_mem_nil
  | cons a text ih =>
    rw [segments] at h
    rw [List.length_cons]
    split at h
    · rcases List.mem_cons.1 h with rfl | h
      · exact ⟨Nat.le_refl _, by dsimp only; omega⟩
      · have := ih h
        omega
    · split at h
      · rw [List.mem_singleton.1 h]
        exact ⟨Nat.le_refl _, by dsimp only; omega⟩
      · next hrest =>
        rcases List.mem_cons.1 h with rfl | h
        · exact ⟨Nat.le_refl _, by dsimp only; omega⟩
        · have hlater : s ∈ segments stop cut (position + 1) text := by
            rw [hrest]
            exact List.mem_cons_of_mem _ h
          have := ih hlater
          omega

theorem segments_ne_nil {text : List α} {s : Nat × List α} (h : s ∈ segments stop cut position text) : s.2 ≠ [] := by
  induction text generalizing position with
  | nil => exact absurd h List.not_mem_nil
  | cons a text ih =>
    rw [segments] at h
    split at h
    · rcases List.mem_cons.1 h with rfl | h
      · exact List.cons_ne_nil _ _
      · exact ih h
    · split at h
      · rw [List.mem_singleton.1 h]
        exact List.cons_ne_nil _ _
      · next hrest =>
        rcases List.mem_cons.1 h with rfl | h
        · exact List.cons_ne_nil _ _
        · have hlater : s ∈ segments stop cut (position + 1) text := by
            rw [hrest]
            exact List.mem_cons_of_mem _ h
          exact ih hlater

/-- The segments follow each other. -/
theorem segments_order {text : List α} :
    (segments stop cut position text).Pairwise fun s t => s.1 + s.2.length ≤ t.1 := by
  induction text generalizing position with
  | nil => exact List.Pairwise.nil
  | cons a text ih =>
    rw [segments]
    split
    · refine List.pairwise_cons.2 ⟨fun t ht => ?_, ih⟩
      have := (segments_range ht).1
      simpa using this
    · split
      · exact List.pairwise_singleton _ _
      · next p segment rest hrest =>
        have hpair : (segments stop cut (position + 1) text).Pairwise
            fun s t => s.1 + s.2.length ≤ t.1 := ih
        rw [hrest] at hpair
        obtain ⟨hfirst, htail⟩ := List.pairwise_cons.1 hpair
        obtain ⟨rfl, -⟩ := segments_first hrest
        refine List.pairwise_cons.2 ⟨fun t ht => ?_, htail⟩
        have := hfirst t ht
        dsimp only at this ⊢
        rw [List.length_cons]
        omega

/-- Lists made of blocks with values of their own are equal block by block. -/
theorem flatMap_eq_iff {β γ : Type} {blocks : List β} {g h : β → List γ}
    (hown : blocks.Pairwise fun a b => ∀ v, v ∈ g a ∨ v ∈ h a → ¬ (v ∈ g b ∨ v ∈ h b)) :
    blocks.flatMap g = blocks.flatMap h ↔ ∀ b ∈ blocks, g b = h b := by
  classical
  induction blocks with
  | nil => simp
  | cons a blocks ih =>
    obtain ⟨hfirst, hrest⟩ := List.pairwise_cons.1 hown
    have hother : ∀ {k : β → List γ}, (∀ b v, v ∈ k b → v ∈ g b ∨ v ∈ h b) →
        (blocks.flatMap k).filter (fun v => decide (v ∈ g a ∨ v ∈ h a)) = [] := by
      intro k hk
      refine List.filter_eq_nil_iff.2 fun v hv hmem => ?_
      obtain ⟨b, hb, hvb⟩ := List.mem_flatMap.1 hv
      exact hfirst b hb v (of_decide_eq_true hmem) (hk b v hvb)
    have hself : ∀ {l : List γ}, (∀ v ∈ l, v ∈ g a ∨ v ∈ h a) →
        l.filter (fun v => decide (v ∈ g a ∨ v ∈ h a)) = l :=
      fun hl => List.filter_eq_self.2 fun v hv => decide_eq_true (hl v hv)
    rw [List.flatMap_cons, List.flatMap_cons, List.forall_mem_cons, ← ih hrest]
    constructor
    · intro heq
      have hfilter := congrArg (List.filter fun v => decide (v ∈ g a ∨ v ∈ h a)) heq
      rw [List.filter_append, List.filter_append, hother fun b v hv => .inl hv, hother fun b v hv => .inr hv,
        hself fun v hv => .inl hv, hself fun v hv => .inr hv, List.append_nil, List.append_nil] at hfilter
      rw [hfilter] at heq
      exact ⟨hfilter, List.append_cancel_left heq⟩
    · rintro ⟨hblock, htail⟩
      rw [hblock, htail]

end Mdrj.Core
