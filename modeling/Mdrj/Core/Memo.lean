import Mathlib.Data.List.Forall2
import Mathlib.Logic.Basic

/-!
# Computations over a memo state

A program that fills a shared cache, or that recurses on a bounded stack,
is a `StateT σ Option` computation. `Yields I m P` says that from every
state satisfying the invariant `I` the program returns, with a result that
satisfies `P`, and keeps `I`; `Computes I m a` is the case of one result
whatever the memo holds. The rules follow the program text (`pure`, `bind`,
the list loops), so a program is related to its pure reading by walking
through it once. `Returns I m P` asks the same of the runs that return only;
a program that returns from every state then `Yields` it (`Yields.of_returns`).
-/
namespace Mdrj.Core

section Loops
variable {m : Type → Type} [Monad m] {α β γ : Type}

/-- A comprehension `[b for a in as if cond]` whose body may have effects. -/
def collectM (f : α → m (Option β)) : List α → m (List β)
  | [] => pure []
  | a :: as => do
    let b ← f a
    let bs ← collectM f as
    pure (b.toList ++ bs)

/-- A loop `for a in as: s = f(s, a)`. -/
def loopM (f : γ → α → m γ) : γ → List α → m γ
  | s, [] => pure s
  | s, a :: as => do
    let s' ← f s a
    loopM f s' as

/-- A loop that returns at the first element whose test succeeds. -/
def firstM (f : α → m Bool) : List α → m (Option α)
  | [] => pure none
  | a :: as => do
    if ← f a then pure (some a) else firstM f as

theorem collectM_map {δ : Type} (f : α → m (Option β)) (g : δ → α) (as : List δ) :
    collectM f (as.map g) = collectM (fun a => f (g a)) as := by
  induction as with
  | nil => rfl
  | cons a as ih => simp only [List.map_cons, collectM, ih]

theorem loopM_map {δ : Type} (f : γ → α → m γ) (g : δ → α) (s : γ) (as : List δ) :
    loopM f s (as.map g) = loopM (fun s a => f s (g a)) s as := by
  induction as generalizing s with
  | nil => rfl
  | cons a as ih => simp only [List.map_cons, loopM, ih]

end Loops

variable {σ : Type} {I : σ → Prop} {α β γ : Type}

def Yields (I : σ → Prop) (m : StateT σ Option α) (P : α → Prop) : Prop :=
  ∀ s, I s → ∃ a s', m.run s = some (a, s') ∧ P a ∧ I s'

abbrev Computes (I : σ → Prop) (m : StateT σ Option α) (a : α) : Prop := Yields I m (· = a)

theorem Yields.pure {P : α → Prop} {a : α} (h : P a) : Yields I (Pure.pure a) P :=
  fun s hs => ⟨a, s, rfl, h, hs⟩

theorem Yields.mono {m : StateT σ Option α} {P Q : α → Prop} (h : Yields I m P)
    (hpq : ∀ a, P a → Q a) : Yields I m Q := by
  intro s hs
  obtain ⟨a, s', hr, hp, hs'⟩ := h s hs
  exact ⟨a, s', hr, hpq a hp, hs'⟩

theorem Yields.bind {m : StateT σ Option α} {f : α → StateT σ Option β} {P : α → Prop}
    {Q : β → Prop} (hm : Yields I m P) (hf : ∀ a, P a → Yields I (f a) Q) :
    Yields I (m >>= f) Q := by
  intro s hs
  obtain ⟨a, s1, h1, hp, hs1⟩ := hm s hs
  obtain ⟨b, s2, h2, hq, hs2⟩ := hf a hp s1 hs1
  refine ⟨b, s2, ?_, hq, hs2⟩
  simp only [StateT.run_bind, h1]
  exact h2

/-- A loop keeps a property of the part of the list it has consumed. -/
theorem Yields.loopM {f : γ → α → StateT σ Option γ} (Q : List α → γ → Prop) {as : List α}
    (hstep : ∀ pre a post, as = pre ++ a :: post → ∀ s, Q pre s →
      Yields I (f s a) (Q (pre ++ [a]))) {s : γ} (h0 : Q [] s) :
    Yields I (loopM f s as) (Q as) := by
  suffices h : ∀ post pre s, as = pre ++ post → Q pre s → Yields I (Core.loopM f s post) (Q as) by
    exact h as [] s rfl h0
  intro post
  induction post with
  | nil =>
    intro pre s he hq
    rw [List.append_nil] at he
    exact Yields.pure (he ▸ hq)
  | cons a post ih =>
    intro pre s he hq
    refine (hstep pre a post he s hq).bind fun s' hq' => ?_
    exact ih (pre ++ [a]) s' (by simpa using he) hq'

/-- A comprehension returns if its bodies do. -/
theorem Yields.collectM {f : α → StateT σ Option (Option β)} {as : List α}
    (h : ∀ a ∈ as, Yields I (f a) fun _ => True) : Yields I (collectM f as) fun _ => True := by
  induction as with
  | nil => exact Yields.pure trivial
  | cons a as ih =>
    have hrest := ih fun x hx => h x (List.mem_cons_of_mem _ hx)
    exact (h a List.mem_cons_self).bind fun _ _ => hrest.bind fun _ _ => Yields.pure trivial

/-- A comprehension that keeps a key of every element. -/
theorem Yields.collectM_keys {κ : Type} {f : α → StateT σ Option (Option β)} (k : α → κ) (k' : β → κ)
    {as : List α} (h : ∀ a ∈ as, Yields I (f a) fun b => b.map k' = some (k a)) :
    Yields I (Core.collectM f as) fun bs => bs.map k' = as.map k := by
  induction as with
  | nil => exact Yields.pure rfl
  | cons a as ih =>
    have hrest := ih fun x hx => h x (List.mem_cons_of_mem _ hx)
    refine (h a List.mem_cons_self).bind fun b hb => hrest.bind fun bs hbs => Yields.pure ?_
    obtain ⟨y, rfl, hy⟩ := Option.map_eq_some_iff.1 hb
    simp [hy, hbs]

theorem Yields.firstM {f : α → StateT σ Option Bool} {as : List α}
    (h : ∀ a ∈ as, Yields I (f a) fun _ => True) : Yields I (firstM f as) fun _ => True := by
  induction as with
  | nil => exact Yields.pure trivial
  | cons a as ih =>
    have hrest := ih fun x hx => h x (List.mem_cons_of_mem _ hx)
    refine (h a List.mem_cons_self).bind fun b _ => ?_
    cases b
    · simpa using hrest
    · exact Yields.pure trivial

/-- Two programs that go on alike after the results the first part can have. -/
theorem Yields.run_bind_congr {m : StateT σ Option α} {f g : α → StateT σ Option β} {P : α → Prop}
    (hm : Yields I m P) (hfg : ∀ a, P a → ∀ s, I s → (f a).run s = (g a).run s) :
    ∀ s, I s → (m >>= f).run s = (m >>= g).run s := by
  intro s hs
  obtain ⟨a, s', hrun, hp, hs'⟩ := hm s hs
  simp only [StateT.run_bind, hrun]
  exact hfg a hp s' hs'

/-- From a state satisfying `I`, a run that returns has a result that satisfies
`P`, and keeps `I`. -/
def Returns (I : σ → Prop) (m : StateT σ Option α) (P : α → Prop) : Prop :=
  ∀ s, I s → ∀ a s', m.run s = some (a, s') → P a ∧ I s'

theorem Returns.pure {P : α → Prop} {a : α} (h : P a) : Returns I (Pure.pure a) P := by
  intro s hs b s' hrun
  obtain ⟨rfl, rfl⟩ := Prod.mk.inj (Option.some.inj hrun)
  exact ⟨h, hs⟩

theorem Returns.bind {m : StateT σ Option α} {f : α → StateT σ Option β} {P : α → Prop}
    {Q : β → Prop} (hm : Returns I m P) (hf : ∀ a, P a → Returns I (f a) Q) :
    Returns I (m >>= f) Q := by
  intro s hs b s' hrun
  rw [StateT.run_bind] at hrun
  obtain ⟨⟨a, s1⟩, h1, h2⟩ := Option.bind_eq_some_iff.1 hrun
  obtain ⟨hp, hs1⟩ := hm s hs a s1 h1
  exact hf a hp s1 hs1 b s' h2

theorem Returns.loopM {f : γ → α → StateT σ Option γ} (Q : List α → γ → Prop) {as : List α}
    (hstep : ∀ pre a s, Q pre s → Returns I (f s a) (Q (pre ++ [a]))) {s : γ} (h0 : Q [] s) :
    Returns I (loopM f s as) (Q as) := by
  suffices h : ∀ post pre s, as = pre ++ post → Q pre s → Returns I (Core.loopM f s post) (Q as) by
    exact h as [] s rfl h0
  intro post
  induction post with
  | nil =>
    intro pre s he hq
    rw [List.append_nil] at he
    exact Returns.pure (he ▸ hq)
  | cons a post ih =>
    intro pre s he hq
    refine (hstep pre a s hq).bind fun s' hq' => ?_
    exact ih (pre ++ [a]) s' (by simpa using he) hq'

/-- A comprehension without a condition: one result for each element. -/
theorem Returns.collectM {f : α → StateT σ Option β} {R : α → β → Prop} {as : List α}
    (h : ∀ a ∈ as, Returns I (f a) (R a)) :
    Returns I (collectM (fun a => do return some (← f a)) as) (List.Forall₂ R as) := by
  induction as with
  | nil => exact Returns.pure .nil
  | cons a as ih =>
    have hrest := ih fun x hx => h x (List.mem_cons_of_mem _ hx)
    refine Returns.bind (P := fun b => ∃ c, b = some c ∧ R a c) ?_ ?_
    · exact (h a List.mem_cons_self).bind fun b hb => Returns.pure ⟨b, rfl, hb⟩
    · rintro _ ⟨b, rfl, hb⟩
      exact hrest.bind fun bs hbs => Returns.pure (.cons hb hbs)

/-- What returns from every state returns what it should. -/
theorem Yields.of_returns {m : StateT σ Option α} {P : α → Prop}
    (hm : Yields (fun _ => True) m fun _ => True) (h : Returns I m P) : Yields I m P := by
  intro s hs
  obtain ⟨a, s', hrun, -, -⟩ := hm s trivial
  exact ⟨a, s', hrun, h s hs a s' hrun⟩

theorem Computes.pure (a : α) : Computes I (Pure.pure a) a := Yields.pure rfl

theorem Computes.bind {m : StateT σ Option α} {f : α → StateT σ Option β} {a : α} {b : β}
    (hm : Computes I m a) (hf : Computes I (f a) b) : Computes I (m >>= f) b :=
  Yields.bind hm fun _ he => he ▸ hf

theorem Computes.collectM {f : α → StateT σ Option (Option β)} {g : α → Option β}
    {as : List α} (h : ∀ a ∈ as, Computes I (f a) (g a)) :
    Computes I (collectM f as) (as.filterMap g) := by
  induction as with
  | nil => exact Computes.pure _
  | cons a as ih =>
    have hrest := ih fun x hx => h x (List.mem_cons_of_mem _ hx)
    have e : (a :: as).filterMap g = (g a).toList ++ as.filterMap g := by
      rw [List.filterMap_cons]; cases g a <;> rfl
    rw [e]
    exact (h a List.mem_cons_self).bind (hrest.bind (Computes.pure _))

theorem Computes.loopM {f : γ → α → StateT σ Option γ} {g : γ → α → γ} {as : List α}
    (h : ∀ s, ∀ a ∈ as, Computes I (f s a) (g s a)) (s : γ) :
    Computes I (loopM f s as) (as.foldl g s) := by
  induction as generalizing s with
  | nil => exact Computes.pure _
  | cons a as ih =>
    exact (h s a List.mem_cons_self).bind
      (ih (fun s x hx => h s x (List.mem_cons_of_mem _ hx)) _)

theorem Computes.firstM {f : α → StateT σ Option Bool} {g : α → Bool} {as : List α}
    (h : ∀ a ∈ as, Computes I (f a) (g a)) : Computes I (firstM f as) (as.find? g) := by
  induction as with
  | nil => exact Computes.pure _
  | cons a as ih =>
    have hrest := ih fun x hx => h x (List.mem_cons_of_mem _ hx)
    refine (h a List.mem_cons_self).bind ?_
    rw [List.find?_cons]
    cases g a
    · simpa using hrest
    · exact Computes.pure _

end Mdrj.Core
