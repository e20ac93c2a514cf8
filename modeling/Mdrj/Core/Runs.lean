import Mathlib.Data.List.Infix

/-!
# Runs

A system with a total step function is run on a list of actions. A property
that every admitted step preserves holds at the end of every admitted run;
since an initial part of an admitted run is admitted, it holds along the
way. Where a step that is not admitted breaks the property at once, the
admitted runs are the runs that keep it throughout (`admits_iff`). A list
that grows by some of the actions holds those that were chosen in the state
they met (`mem_run_collected`). A property that some actions set and others
clear holds when it was set, and has not been cleared since
(`run_iff_since`). What does not hold at the start, and only certain steps bring
about, holds after one of them (`happened_of_holds`).
-/
namespace Mdrj.Core

variable {σ α : Type} {step : σ → α → σ} {ok : σ → α → Prop}

/-- The state after a list of actions. -/
def run (step : σ → α → σ) (s : σ) (actions : List α) : σ := actions.foldl step s

/-- Every action of the run is taken in a state that admits it. -/
def Admits (step : σ → α → σ) (ok : σ → α → Prop) : σ → List α → Prop
  | _, [] => True
  | s, a :: actions => ok s a ∧ Admits step ok (step s a) actions

/-- Adding one entry at the end of a list, and a split of the result. -/
theorem split_concat {l before since : List α} {a x : α} (h : l ++ [a] = before ++ x :: since) :
    (since = [] ∧ before = l ∧ x = a) ∨ ∃ since', since = since' ++ [a] ∧ l = before ++ x :: since' := by
  rcases List.eq_nil_or_concat since with rfl | ⟨since', b, rfl⟩
  · have h' := List.append_inj' h rfl
    exact .inl ⟨rfl, h'.1.symm, (List.cons.inj h'.2).1.symm⟩
  · have hassoc : l ++ [a] = (before ++ x :: since') ++ [b] := by rw [h]; simp
    have h' := List.append_inj' hassoc rfl
    exact .inr ⟨since', by rw [(List.cons.inj h'.2).1, List.concat_eq_append], h'.1⟩

instance decidableAdmits [∀ s a, Decidable (ok s a)] : ∀ (s : σ) (actions : List α), Decidable (Admits step ok s actions)
  | _, [] => .isTrue trivial
  | s, a :: actions =>
    have := decidableAdmits (step s a) actions
    inferInstanceAs (Decidable (ok s a ∧ Admits step ok (step s a) actions))

theorem run_invariant {I : σ → Prop} (hstep : ∀ s a, I s → ok s a → I (step s a)) :
    ∀ {actions s}, I s → Admits step ok s actions → I (run step s actions) := by
  intro actions
  induction actions with
  | nil => intro s hs _; exact hs
  | cons a actions ih =>
    intro s hs hok
    exact ih (hstep s a hs hok.1) hok.2

theorem forall_prefix_nil {P : List α → Prop} : (∀ pre, pre <+: [] → P pre) ↔ P [] :=
  ⟨fun h => h [] (List.prefix_refl _), fun h _ hpre => List.prefix_nil.1 hpre ▸ h⟩

theorem forall_prefix_cons {P : List α → Prop} {a : α} {actions : List α} :
    (∀ pre, pre <+: a :: actions → P pre) ↔ P [] ∧ ∀ pre, pre <+: actions → P (a :: pre) := by
  constructor
  · intro h
    exact ⟨h [] List.nil_prefix, fun pre hpre => h (a :: pre) (List.cons_prefix_cons.2 ⟨rfl, hpre⟩)⟩
  · intro h pre hpre
    rcases List.prefix_cons_iff.1 hpre with rfl | ⟨rest, rfl, hrest⟩
    · exact h.1
    · exact h.2 rest hrest

/-- An initial part of an admitted run is admitted. -/
theorem Admits.of_initial : ∀ {pre actions : List α} {s : σ}, Admits step ok s actions → pre <+: actions →
    Admits step ok s pre
  | [], _, _, _, _ => trivial
  | a :: pre, [], _, _, hpre => absurd (List.prefix_nil.1 hpre) (List.cons_ne_nil a pre)
  | a :: pre, b :: actions, s, h, hpre => by
    obtain ⟨rfl, hrest⟩ := List.cons_prefix_cons.1 hpre
    exact ⟨h.1, h.2.of_initial hrest⟩

theorem Admits.and {ok' : σ → α → Prop} : ∀ {actions : List α} {s : σ}, Admits step ok s actions →
    Admits step ok' s actions → Admits step (fun s a => ok s a ∧ ok' s a) s actions
  | [], _, _, _ => trivial
  | _ :: _, _, h, h' => ⟨⟨h.1, h'.1⟩, h.2.and h'.2⟩

theorem run_concat (s : σ) (pre : List α) (a : α) : run step s (pre ++ [a]) = step (run step s pre) a :=
  List.foldl_concat ..

theorem run_append (s : σ) (pre post : List α) : run step s (pre ++ post) = run step (run step s pre) post :=
  List.foldl_append ..

theorem admits_append {pre post : List α} {s : σ} : Admits step ok s (pre ++ post) ↔
    Admits step ok s pre ∧ Admits step ok (run step s pre) post := by
  induction pre generalizing s with
  | nil => exact (and_iff_right trivial).symm
  | cons a pre ih =>
    change ok s a ∧ Admits step ok (step s a) (pre ++ post) ↔ _
    rw [ih]
    exact and_assoc.symm

theorem Admits.imp {ok' : σ → α → Prop} : ∀ {actions : List α} {s : σ}, Admits step ok s actions →
    (∀ s, ∀ a ∈ actions, ok s a → ok' s a) → Admits step ok' s actions
  | [], _, _, _ => trivial
  | a :: _, s, h, himp =>
    ⟨himp s a List.mem_cons_self h.1, h.2.imp fun s b hb => himp s b (List.mem_cons_of_mem a hb)⟩

/-- A run is admitted when each of its steps is, in the state it is taken in. -/
theorem admits_iff_steps : ∀ {actions : List α} {s : σ},
    Admits step ok s actions ↔ ∀ pre a, pre ++ [a] <+: actions → ok (run step s pre) a
  | [], s => by
    refine ⟨fun _ pre a h => ?_, fun _ => trivial⟩
    exact absurd (List.prefix_nil.1 h) (by simp)
  | b :: actions, s => by
    constructor
    · intro h pre a hpre
      match pre with
      | [] =>
        obtain rfl := (List.cons_prefix_cons.1 hpre).1
        exact h.1
      | c :: pre =>
        obtain ⟨rfl, hrest⟩ := List.cons_prefix_cons.1 hpre
        exact admits_iff_steps.1 h.2 pre a hrest
    · intro h
      refine ⟨h [] b (List.cons_prefix_cons.2 ⟨rfl, List.nil_prefix⟩), admits_iff_steps.2 ?_⟩
      intro pre a hpre
      exact h (b :: pre) a (List.cons_prefix_cons.2 ⟨rfl, hpre⟩)

/-- What every step keeps, and may be composed, is kept from any state of a
run to any later one. -/
theorem run_related {R : σ → σ → Prop} (hrefl : ∀ s, R s s)
    (htrans : ∀ {s s' s''}, R s s' → R s' s'' → R s s'') {actions : List α} {s : σ}
    (h : Admits step (fun s a => R s (step s a)) s actions) {pre pre' : List α} (hle : pre <+: pre')
    (hpre' : pre' <+: actions) : R (run step s pre) (run step s pre') := by
  have hall : Admits step (fun s a => R s (step s a)) s pre' := h.of_initial hpre'
  clear h hpre'
  obtain ⟨rest, rfl⟩ := hle
  -- the later states one by one, from the end
  induction rest using List.reverseRecOn with
  | nil => rw [List.append_nil]; exact hrefl _
  | append_singleton rest a ih =>
    rw [← List.append_assoc] at hall ⊢
    rw [run_concat]
    exact htrans (ih (hall.of_initial (List.prefix_append _ _)))
      (admits_iff_steps.1 hall _ a (List.prefix_refl _))

theorem related_iff {R : σ → σ → Prop} (hrefl : ∀ s, R s s)
    (htrans : ∀ {s s' s''}, R s s' → R s' s'' → R s s'') {actions : List α} {s : σ} :
    Admits step (fun s a => R s (step s a)) s actions ↔
      ∀ pre pre', pre <+: pre' → pre' <+: actions → R (run step s pre) (run step s pre') := by
  constructor
  · intro h pre pre' hle hpre'
    exact run_related hrefl htrans h hle hpre'
  · intro h
    rw [admits_iff_steps]
    intro pre a hpre
    have hR := h pre _ (List.prefix_append pre [a]) hpre
    rwa [run_concat] at hR

/-- Actions that every state admits. -/
theorem admits_of_forall : ∀ {actions : List α} {s : σ}, (∀ a ∈ actions, ∀ s, ok s a) →
    Admits step ok s actions
  | [], _, _ => trivial
  | a :: _, s, h => ⟨h a List.mem_cons_self s, admits_of_forall fun b hb => h b (List.mem_cons_of_mem a hb)⟩

/-- What every step with a `Q` action keeps. -/
theorem run_kept {I : σ → Prop} {Q : α → Prop} (hstep : ∀ s a, Q a → I s → I (step s a))
    {actions : List α} {s : σ} (hQ : ∀ a ∈ actions, Q a) (hs : I s) : I (run step s actions) :=
  run_invariant (fun s a hs ha => hstep s a ha hs) hs (admits_of_forall fun a ha _ => hQ a ha)

/-- What every step keeps. -/
theorem run_always {I : σ → Prop} (hstep : ∀ s a, I s → I (step s a)) (actions : List α) {s : σ}
    (hs : I s) : I (run step s actions) :=
  run_kept (Q := fun _ => True) (fun s a _ => hstep s a) (fun _ _ => trivial) hs

/-- The admitted runs are those in which `P` holds in every state reached,
among the runs whose actions all satisfy `Q`. -/
theorem admits_iff_on {I P : σ → Prop} {Q : α → Prop} (hP : ∀ s, I s → P s)
    (hstep : ∀ s a, Q a → I s → ok s a → I (step s a))
    (hfail : ∀ s a, Q a → I s → ¬ ok s a → ¬ P (step s a)) :
    ∀ {actions s}, (∀ a ∈ actions, Q a) → I s →
      (Admits step ok s actions ↔ ∀ pre, pre <+: actions → P (run step s pre)) := by
  intro actions
  induction actions with
  | nil =>
    intro s _ hs
    rw [forall_prefix_nil]
    exact ⟨fun _ => hP s hs, fun _ => trivial⟩
  | cons a actions ih =>
    intro s hQ hs
    obtain ⟨hQa, hQrest⟩ := List.forall_mem_cons.1 hQ
    rw [forall_prefix_cons]
    constructor
    · intro hok
      exact ⟨hP s hs, (ih hQrest (hstep s a hQa hs hok.1)).1 hok.2⟩
    · intro h
      have ha : ok s a := by
        by_contra hno
        exact hfail s a hQa hs hno (h.2 [] List.nil_prefix)
      exact ⟨ha, (ih hQrest (hstep s a hQa hs ha)).2 h.2⟩

theorem admits_iff {I P : σ → Prop} (hP : ∀ s, I s → P s)
    (hstep : ∀ s a, I s → ok s a → I (step s a)) (hfail : ∀ s a, I s → ¬ ok s a → ¬ P (step s a))
    {actions : List α} {s : σ} (hs : I s) :
    Admits step ok s actions ↔ ∀ pre, pre <+: actions → P (run step s pre) :=
  admits_iff_on (Q := fun _ => True) hP (fun s a _ => hstep s a) (fun s a _ => hfail s a)
    (fun _ _ => trivial) hs

/-- The admitted runs are those whose steps all keep `R` and whose states all
satisfy `I`. -/
theorem admits_iff_kept {I : σ → Prop} {R : σ → σ → Prop}
    (hstep : ∀ s a, I s → (ok s a ↔ I (step s a) ∧ R s (step s a))) :
    ∀ {actions s}, I s → (Admits step ok s actions ↔
      (∀ pre, pre <+: actions → I (run step s pre)) ∧
        Admits step (fun s a => R s (step s a)) s actions) := by
  intro actions
  induction actions with
  | nil =>
    intro s hs
    rw [forall_prefix_nil]
    exact ⟨fun _ => ⟨hs, trivial⟩, fun _ => trivial⟩
  | cons a actions ih =>
    intro s hs
    rw [forall_prefix_cons]
    constructor
    · intro hok
      obtain ⟨hI, hR⟩ := (hstep s a hs).1 hok.1
      obtain ⟨hall, hrel⟩ := (ih hI).1 hok.2
      exact ⟨⟨hs, hall⟩, hR, hrel⟩
    · intro h
      have hI := h.1.2 [] List.nil_prefix
      exact ⟨(hstep s a hs).2 ⟨hI, h.2.1⟩, (ih hI).2 ⟨h.1.2, h.2.2⟩⟩

section Collected
variable {c : σ → List α} {P : σ → α → Bool}

/-- A list to which a step appends its action when `P` holds. -/
theorem mem_run_collected (hc : ∀ s a, c (step s a) = if P s a then c s ++ [a] else c s) (s : σ)
    (actions : List α) {a : α} : a ∈ c (run step s actions) ↔
      a ∈ c s ∨ ∃ pre post, actions = pre ++ a :: post ∧ P (run step s pre) a = true := by
  induction actions using List.reverseRecOn with
  | nil =>
    refine ⟨.inl, fun h => h.elim id fun ⟨pre, post, hsplit, _⟩ => ?_⟩
    exact absurd hsplit (by simp)
  | append_singleton actions b ih =>
    rw [run_concat, hc]
    constructor
    · intro h
      have hcases : a ∈ c (run step s actions) ∨ a = b ∧ P (run step s actions) b = true := by
        split at h
        · rename_i hP
          exact (List.mem_append.1 h).imp_right fun hb => ⟨List.mem_singleton.1 hb, hP⟩
        · exact .inl h
      rcases hcases with hold | ⟨rfl, hP⟩
      · refine (ih.1 hold).imp_right fun hsplit => ?_
        obtain ⟨pre, post, rfl, hP⟩ := hsplit
        exact ⟨pre, post ++ [b], by simp, hP⟩
      · exact .inr ⟨actions, [], rfl, hP⟩
    · intro h
      have hcases : a ∈ c (run step s actions) ∨ a = b ∧ P (run step s actions) b = true := by
        rcases h with hs | ⟨pre, post, hsplit, hP⟩
        · exact .inl (ih.2 (.inl hs))
        · rcases List.eq_nil_or_concat post with rfl | ⟨post, b', rfl⟩
          · obtain ⟨rfl, hb⟩ := List.append_inj' hsplit rfl
            obtain rfl := (List.cons.inj hb).1
            exact .inr ⟨rfl, hP⟩
          · rw [List.concat_eq_append, ← List.cons_append, ← List.append_assoc] at hsplit
            obtain ⟨rfl, -⟩ := List.append_inj' hsplit rfl
            exact .inl (ih.2 (.inr ⟨pre, post, rfl, hP⟩))
      split
      · exact List.mem_append.2 (hcases.imp_right fun h => List.mem_singleton.2 h.1)
      · rename_i hP
        exact hcases.resolve_right fun h => hP h.2

/-- What is collected keeps the order of the actions. -/
theorem collected_sublist (hc : ∀ s a, c (step s a) = if P s a then c s ++ [a] else c s) (s : σ)
    (hs : c s = []) (actions : List α) : (c (run step s actions)).Sublist actions := by
  induction actions using List.reverseRecOn with
  | nil => rw [show run step s [] = s from rfl, hs]
  | append_singleton actions b ih =>
    rw [run_concat, hc]
    split
    · exact ih.append (List.Sublist.refl _)
    · exact ih.trans (List.sublist_append_left _ _)

end Collected

section Since
variable {I P : σ → Prop} {sets clears : σ → α → Prop}

/-- Some action has set the property, and none has cleared it since. -/
def Since (step : σ → α → σ) (sets clears : σ → α → Prop) (s : σ) (actions : List α) : Prop :=
  ∃ pre a post, actions = pre ++ a :: post ∧ sets (run step s pre) a ∧
    Admits step (fun s a => ¬ clears s a) (run step s (pre ++ [a])) post

/-- What a step sets, or leaves. -/
theorem run_iff_since (hI : ∀ s a, I s → I (step s a))
    (hP : ∀ s a, I s → (P (step s a) ↔ sets s a ∨ P s ∧ ¬ clears s a)) {s : σ} (hs : I s) (hno : ¬ P s)
    (actions : List α) : P (run step s actions) ↔ Since step sets clears s actions := by
  have hrun : ∀ actions, I (run step s actions) := fun actions => by
    induction actions using List.reverseRecOn with
    | nil => exact hs
    | append_singleton actions a ih =>
      rw [run_concat]
      exact hI _ a ih
  constructor
  · intro h
    induction actions using List.reverseRecOn with
    | nil => exact absurd h hno
    | append_singleton actions b ih =>
      rw [run_concat, hP _ b (hrun actions)] at h
      rcases h with hset | ⟨hold, hkept⟩
      · exact ⟨actions, b, [], rfl, hset, trivial⟩
      · obtain ⟨pre, a, post, rfl, hset, hpost⟩ := ih hold
        refine ⟨pre, a, post ++ [b], by simp, hset, admits_append.2 ⟨hpost, ?_, trivial⟩⟩
        rw [← run_append, List.append_assoc, List.singleton_append]
        exact hkept
  · rintro ⟨pre, a, post, rfl, hset, hpost⟩
    rw [← List.singleton_append, ← List.append_assoc, run_append]
    have hstart : I (run step s (pre ++ [a])) ∧ P (run step s (pre ++ [a])) := by
      refine ⟨hrun _, ?_⟩
      rw [run_concat, hP _ a (hrun pre)]
      exact .inl hset
    refine (run_invariant (I := fun s => I s ∧ P s) (fun s b hs hkept => ⟨hI s b hs.1, ?_⟩) hstart hpost).2
    exact (hP s b hs.1).2 (.inr ⟨hs.2, hkept⟩)

end Since

/-! ## What brought it about -/

/-- Some action was of this kind, after the actions before it. -/
def Happened (kind : List α → α → Prop) (actions : List α) : Prop :=
  ∃ pre a post, actions = pre ++ a :: post ∧ kind pre a

theorem happened_of_holds {P : σ → Prop} {kind : List α → α → Prop} {s : σ} (hno : ¬ P s)
    (hstep : ∀ pre a, P (run step s (pre ++ [a])) → P (run step s pre) ∨ kind pre a) (actions : List α)
    (h : P (run step s actions)) : Happened kind actions := by
  induction actions using List.reverseRecOn with
  | nil => exact absurd h hno
  | append_singleton actions a ih =>
    rcases hstep actions a h with hold | hkind
    · obtain ⟨pre, b, post, rfl, hb⟩ := ih hold
      exact ⟨pre, b, post ++ [a], by simp, hb⟩
    · exact ⟨actions, a, [], rfl, hkind⟩

end Mdrj.Core
