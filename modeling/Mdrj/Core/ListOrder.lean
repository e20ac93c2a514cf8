import Mdrj.Core.ListSort

/-!
# The order of a sorted list

Results:
* `pairwise_sorted`: the sort orders its list by every transitive relation that
  the comparison respects; `pairwise_sorted_of` asks for this on the elements
  of the list only.
* `sorted_map`: only the comparisons count, so a sort by a key is the sort of
  the keys.
-/
namespace Mdrj.Core.ListSort

variable {α : Type}

/-! ## The result is in order -/

/-- What the comparison respects: any order with `le a b` where `a` is smaller,
and `le b a` where it is not. -/
structure Respects (lt : α → α → Bool) (le : α → α → Prop) : Prop where
  trans : ∀ {a b c}, le a b → le b c → le a c
  of_lt : ∀ {a b}, lt a b = true → le a b
  of_not_lt : ∀ {a b}, lt a b = false → le b a

/-- The key belongs at this place of the run. -/
def Splits (le : α → α → Prop) (key : α) (run : List α) (k : ℕ) : Prop :=
  (∀ x ∈ run.take k, le x key) ∧ ∀ x ∈ run.drop k, le key x

section Order
variable {lt : α → α → Bool} {le : α → α → Prop} {run a b : List α} {key : α}

theorem Splits.of_reverse {k : ℕ} (h : Splits le key run.reverse k) :
    Splits (fun x y => le y x) key run (run.length - k) := by
  obtain ⟨hle, hge⟩ := h
  rw [List.take_reverse] at hle
  rw [List.drop_reverse] at hge
  exact ⟨fun x hx => hge x (List.mem_reverse.2 hx), fun x hx => hle x (List.mem_reverse.2 hx)⟩

/-- A key put in its place. -/
theorem Splits.pairwise {k : ℕ} (h : Splits le key run k) (hrun : run.Pairwise le)
    (htrans : ∀ {a b c}, le a b → le b c → le a c) : (run.take k ++ key :: run.drop k).Pairwise le := by
  obtain ⟨hle, hge⟩ := h
  rw [List.pairwise_append, List.pairwise_cons]
  refine ⟨hrun.sublist (List.take_sublist k run), ⟨hge, hrun.sublist (List.drop_sublist k run)⟩, ?_⟩
  intro x hx y hy
  rcases List.mem_cons.1 hy with rfl | hy
  · exact hle x hx
  · exact htrans (hle x hx) (hge y hy)

variable (R : Respects lt le)
include R

/-- In a sorted run it is enough to look at the two neighbours of the place. -/
theorem splits_of_neighbours (hrun : run.Pairwise le) (left : ℕ → Bool) {k : ℕ} (hk : k ≤ run.length)
    (hleft : ∀ m, (hm : m < run.length) → left m = true → le key run[m])
    (hright : ∀ m, (hm : m < run.length) → left m = false → le run[m] key)
    (hbefore : k = 0 ∨ left (k - 1) = false) (hafter : k = run.length ∨ left k = true) :
    Splits le key run k := by
  rw [List.pairwise_iff_getElem] at hrun
  constructor
  · intro x hx
    obtain ⟨m, hm, rfl⟩ := List.mem_take_iff_getElem.1 hx
    have hlt : k - 1 < run.length := by omega
    have hkey := hright (k - 1) hlt (hbefore.resolve_left (by omega))
    rcases Nat.lt_or_ge m (k - 1) with hlast | hlast
    · exact R.trans (hrun m (k - 1) (by omega) hlt hlast) hkey
    · obtain rfl : m = k - 1 := by omega
      exact hkey
  · intro x hx
    obtain ⟨m, hm, rfl⟩ := List.mem_drop_iff_getElem.1 hx
    have hlt : k < run.length := by omega
    have hkey := hleft k hlt (hafter.resolve_left (by omega))
    rcases Nat.eq_zero_or_pos m with rfl | hpos
    · exact hkey
    · exact R.trans hkey (hrun k (k + m) hlt (by omega) (by omega))

theorem splits_gallopRight (key : α) (hrun : run.Pairwise le) {hint : ℕ} (hhint : hint < run.length) :
    Splits le key run (gallopRight lt key run hint) := by
  obtain ⟨hk, hbefore, hafter⟩ := gallop_spec (fun m => lt key (run.getD m key)) hhint
  refine splits_of_neighbours R hrun (fun m => lt key (run.getD m key)) hk (fun m hm h => ?_)
    (fun m hm h => ?_) hbefore hafter
  · rw [List.getD_eq_getElem _ _ hm] at h
    exact R.of_lt h
  · rw [List.getD_eq_getElem _ _ hm] at h
    exact R.of_not_lt h

theorem splits_gallopLeft (key : α) (hrun : run.Pairwise le) {hint : ℕ} (hhint : hint < run.length) :
    Splits le key run (gallopLeft lt key run hint) := by
  obtain ⟨hk, hbefore, hafter⟩ := gallop_spec (fun m => !lt (run.getD m key) key) hhint
  refine splits_of_neighbours R hrun (fun m => !lt (run.getD m key) key) hk (fun m hm h => ?_)
    (fun m hm h => ?_) hbefore hafter
  · rw [List.getD_eq_getElem _ _ hm, Bool.not_eq_true'] at h
    exact R.of_not_lt h
  · rw [List.getD_eq_getElem _ _ hm, Bool.not_eq_false'] at h
    exact R.of_lt h

/-! ### Runs -/

theorem insertPivot_sorted (hrun : run.Pairwise le) : (insertPivot lt run key).Pairwise le := by
  unfold insertPivot
  dsimp only
  obtain ⟨-, hk, hbefore, hafter⟩ := search_spec (fun m => lt key (run.getD m key))
    run.length 0 run.length (Nat.zero_le run.length) (by omega)
  have hsplits := splits_of_neighbours R hrun (fun m => lt key (run.getD m key)) hk
    (fun m hm h => R.of_lt (by rwa [List.getD_eq_getElem _ _ hm] at h))
    (fun m hm h => R.of_not_lt (by rwa [List.getD_eq_getElem _ _ hm] at h)) hbefore hafter
  exact hsplits.pairwise hrun R.trans

theorem binarysort_sorted (hrun : run.Pairwise le) (rest : List α) : (binarysort lt run rest).Pairwise le := by
  unfold binarysort
  induction rest generalizing run with
  | nil => exact hrun
  | cons x rest ih => exact ih (insertPivot_sorted R hrun)

omit R in
/-- Neighbours decide. -/
theorem goesOn_pairwise (more : α → α → Bool) (r : α → α → Prop) (htrans : ∀ {a b c}, r a b → r b c → r a c)
    (hmore : ∀ {a b}, more b a = true → r a b) (last : α) (rest : List α) :
    (last :: rest.take (goesOn more last rest)).Pairwise r := by
  induction rest generalizing last with
  | nil => exact List.pairwise_singleton r last
  | cons x rest ih =>
    unfold goesOn
    by_cases hx : more x last = true
    · rw [if_pos hx, List.take_succ_cons]
      have htail := ih x
      refine List.pairwise_cons.2 ⟨fun y hy => ?_, htail⟩
      rcases List.mem_cons.1 hy with rfl | hy
      · exact hmore hx
      · exact htrans (hmore hx) (List.rel_of_pairwise_cons htail hy)
    · rw [if_neg hx]
      exact List.pairwise_singleton r last

theorem countRun_sorted (rest : List α) {n : ℕ} {descending : Bool}
    (h : countRun lt rest = (n, descending)) :
    (if descending = true then (rest.take n).reverse else rest.take n).Pairwise le := by
  match rest with
  | [] =>
    obtain ⟨rfl, rfl⟩ := Prod.mk.inj h
    exact List.Pairwise.nil
  | [x] =>
    obtain ⟨rfl, rfl⟩ := Prod.mk.inj h
    exact List.pairwise_singleton le x
  | x :: y :: rest =>
    simp only [countRun] at h
    by_cases hdesc : lt y x = true
    · rw [if_pos hdesc] at h
      obtain ⟨rfl, rfl⟩ := Prod.mk.inj h
      rw [if_pos rfl, List.pairwise_reverse]
      have htail := goesOn_pairwise lt (fun a b => le b a) (fun hab hbc => R.trans hbc hab)
        R.of_lt y rest
      refine List.pairwise_cons.2 ⟨fun z hz => ?_, htail⟩
      rcases List.mem_cons.1 hz with rfl | hz
      · exact R.of_lt hdesc
      · exact R.trans (List.rel_of_pairwise_cons htail hz) (R.of_lt hdesc)
    · rw [if_neg hdesc] at h
      obtain ⟨rfl, rfl⟩ := Prod.mk.inj h
      have hasc : lt y x = false := Bool.eq_false_iff.2 hdesc
      rw [if_neg Bool.false_ne_true]
      have htail := goesOn_pairwise (fun a b => !lt a b) le R.trans
        (fun h => R.of_not_lt (by simpa using h)) y rest
      refine List.pairwise_cons.2 ⟨fun z hz => ?_, htail⟩
      rcases List.mem_cons.1 hz with rfl | hz
      · exact R.of_not_lt hasc
      · exact R.trans (R.of_not_lt hasc) (List.rel_of_pairwise_cons htail hz)

theorem nextRun_sorted (least : ℕ) (rest : List α) : (nextRun lt least rest).Pairwise le := by
  have hcount := countRun_sorted R rest rfl
  unfold nextRun
  dsimp only
  split
  · exact binarysort_sorted R hcount _
  · exact hcount

omit R in
theorem countRun_pos (x : α) (rest : List α) : 0 < (countRun lt (x :: rest)).1 := by
  unfold countRun
  split
  · next h => cases h
  · exact Nat.one_pos
  · split <;> exact Nat.succ_pos _

omit R in
theorem nextRun_ne_nil (least : ℕ) (x : α) (rest : List α) : nextRun lt least (x :: rest) ≠ [] := by
  have hpos := @countRun_pos _ lt x rest
  have htake : (x :: rest).take (countRun lt (x :: rest)).1 ≠ [] := by
    rw [Ne, List.take_eq_nil_iff]
    rintro (h | h)
    · omega
    · cases h
  unfold nextRun
  dsimp only
  have hrun : (if (countRun lt (x :: rest)).2 = true then ((x :: rest).take (countRun lt (x :: rest)).1).reverse
      else (x :: rest).take (countRun lt (x :: rest)).1) ≠ [] := by
    split
    · rwa [Ne, List.reverse_eq_nil_iff]
    · exact htake
  split
  · intro h
    have hperm := (@binarysort_perm _ lt _ _).symm.trans (List.Perm.of_eq h)
    exact hrun (List.append_eq_nil_iff.1 hperm.eq_nil).1
  · exact hrun

/-! ### Merges -/

/-- Two sorted runs, where the last element of `a` belongs at the end. -/
structure Mergeable (le : α → α → Prop) (a b : List α) : Prop where
  left : a.Pairwise le
  right : b.Pairwise le
  last : ∀ x ∈ a.getLast?, ∀ y ∈ b, le y x

omit R in
theorem Mergeable.done (h : Mergeable le a b) (hdone : b = [] ∨ a.length ≤ 1) : (b ++ a).Pairwise le := by
  rcases hdone with rfl | ha
  · exact h.left
  · match a, ha with
    | [], _ => rw [List.append_nil]; exact h.right
    | [x], _ =>
      rw [List.pairwise_append]
      refine ⟨h.right, h.left, fun y hy z hz => ?_⟩
      rw [List.mem_singleton.1 hz]
      exact h.last x rfl y hy

omit R in
theorem Mergeable.suffix {a' b' : List α} (h : Mergeable le a b) (ha : a' <:+ a) (hb : b' <:+ b) :
    Mergeable le a' b' := by
  refine ⟨h.left.sublist ha.sublist, h.right.sublist hb.sublist, fun x hx y hy => ?_⟩
  obtain ⟨pre, rfl⟩ := ha
  refine h.last x ?_ y (hb.subset hy)
  have hne : a' ≠ [] := by
    rintro rfl
    cases hx
  rw [List.getLast?_append_of_ne_nil _ hne]
  exact hx

/-- A turn merges in order what goes before everything it leaves. -/
structure TurnSpec (le : α → α → Prop) (a b : List α) (t : Turn α) : Prop where
  left : t.a <:+ a
  right : t.b <:+ b
  out : t.out.Pairwise le
  before : ∀ x ∈ t.out, ∀ y ∈ t.b ++ t.a, le x y
  progress : t.b ≠ [] → 2 ≤ t.a.length → t.out ≠ []

theorem turnLo_spec (ha : a.Pairwise le) (hb : b.Pairwise le) (hne : a ≠ []) :
    TurnSpec le a b (turnLo lt a b) := by
  cases b with
  | nil => exact ⟨List.suffix_rfl, List.suffix_rfl, List.Pairwise.nil, fun _ h => absurd h List.not_mem_nil,
      fun h => absurd rfl h⟩
  | cons y b =>
    obtain ⟨hle, hge⟩ := splits_gallopRight R y ha (List.length_pos_of_ne_nil hne)
    obtain ⟨hy, hb'⟩ := List.pairwise_cons.1 hb
    unfold turnLo
    dsimp only
    generalize gallopRight lt y a 0 = k at hle hge ⊢
    have hsplit : (a.take k ++ a.drop k).Pairwise le := by rwa [List.take_append_drop]
    have hsuffix := List.drop_suffix k a
    obtain ⟨htake, hdrop, hcross⟩ := List.pairwise_append.1 hsplit
    split
    · next x x' rest hrest =>
      rw [hrest] at hge hdrop hcross hsuffix
      obtain ⟨hx, -⟩ := List.pairwise_cons.1 hdrop
      have hl : Splits le x b (gallopLeft lt x b 0) := by
        cases b with
        | nil => simp [Splits]
        | cons z b => exact splits_gallopLeft R _ hb' (Nat.succ_pos _)
      generalize gallopLeft lt x b 0 = l at hl ⊢
      have hb'' : (b.take l ++ b.drop l).Pairwise le := by rwa [List.take_append_drop]
      obtain ⟨htake', hdrop', hcross'⟩ := List.pairwise_append.1 hb''
      obtain ⟨hlx, hxl⟩ := hl
      split
      · next hlong =>
        rw [List.take_of_length_le hlong] at hlx
        refine ⟨hsuffix, List.nil_suffix, ?_, fun z hz w hw => ?_, fun h => absurd rfl h⟩
        · simp only [List.pairwise_append, List.pairwise_cons, List.mem_cons]
          grind [R.trans]
        · simp only [List.nil_append, List.mem_append, List.mem_cons] at hz hw
          grind [R.trans]
      · refine ⟨(List.suffix_cons x _).trans hsuffix, (List.drop_suffix l b).trans (List.suffix_cons y b), ?_,
          fun z hz w hw => ?_, fun _ _ h => by simp at h⟩
        · simp only [List.pairwise_append, List.pairwise_cons, List.mem_append, List.mem_cons]
          grind [R.trans, List.mem_of_mem_take]
        · simp only [List.mem_append, List.mem_cons] at hz hw
          grind [R.trans, List.mem_of_mem_take, List.mem_of_mem_drop]
    · next rest hshort =>
      refine ⟨List.drop_suffix k a, List.suffix_rfl, htake, fun x hx z hz => ?_, fun _ hlen => ?_⟩
      · rcases List.mem_append.1 hz with hz | hz
        · rcases List.mem_cons.1 hz with rfl | hz
          · exact hle x hx
          · exact R.trans (hle x hx) (hy z hz)
        · exact hcross x hx z hz
      · exfalso
        match hd : a.drop k, hlen with
        | x :: x' :: rest, _ => exact hshort x x' rest hd

/-- On reversed runs, which descend. -/
theorem turnHi_spec (ha : a.Pairwise fun x y => le y x) (hb : b.Pairwise fun x y => le y x) (hne : b ≠ []) :
    TurnSpec (fun x y => le y x) a b (turnHi lt a b) := by
  cases a with
  | nil => exact ⟨List.suffix_rfl, List.suffix_rfl, List.Pairwise.nil, fun _ h => absurd h List.not_mem_nil,
      fun _ h => absurd h (Nat.not_succ_le_zero 1)⟩
  | cons x a =>
    have hpos := List.length_pos_of_ne_nil hne
    obtain ⟨hle, hge⟩ := (splits_gallopRight R x (List.pairwise_reverse.2 hb)
      (show b.length - 1 < b.reverse.length by rw [List.length_reverse]; omega)).of_reverse
    obtain ⟨hx, ha'⟩ := List.pairwise_cons.1 ha
    unfold turnHi
    dsimp only
    generalize b.length - gallopRight lt x b.reverse (b.length - 1) = k at hle hge ⊢
    have hsplit : (b.take k ++ b.drop k).Pairwise fun x y => le y x := by rwa [List.take_append_drop]
    have hsuffix := List.drop_suffix k b
    obtain ⟨htake, hdrop, hcross⟩ := List.pairwise_append.1 hsplit
    split
    · next hnil =>
      have hall : ∀ z ∈ b, le x z := by
        rwa [List.take_of_length_le (List.drop_eq_nil_iff.1 hnil)] at hle
      refine ⟨List.suffix_rfl, List.nil_suffix, hb, fun z hz w hw => ?_, fun h => absurd rfl h⟩
      simp only [List.nil_append, List.mem_cons] at hw
      grind [R.trans]
    · next y rest hrest =>
      rw [hrest] at hge hdrop hcross hsuffix
      obtain ⟨hy, -⟩ := List.pairwise_cons.1 hdrop
      have hl : (∀ z ∈ a.take (if a.length ≤ 1 then 0 else a.length - gallopLeft lt y a.reverse (a.length - 1)),
          le y z) ∧ (1 < a.length → ∀ z ∈ a.drop (if a.length ≤ 1 then 0 else
            a.length - gallopLeft lt y a.reverse (a.length - 1)), le z y) := by
        split
        · next hshort => exact ⟨fun z hz => by simp at hz, fun h => absurd h (by omega)⟩
        · next hlong =>
          obtain ⟨htop, hrest⟩ := (splits_gallopLeft R y (List.pairwise_reverse.2 ha')
            (show a.length - 1 < a.reverse.length by rw [List.length_reverse]; omega)).of_reverse
          exact ⟨htop, fun _ => hrest⟩
      generalize (if a.length ≤ 1 then 0 else a.length - gallopLeft lt y a.reverse (a.length - 1)) = l at hl ⊢
      have ha'' : (a.take l ++ a.drop l).Pairwise fun x y => le y x := by rwa [List.take_append_drop]
      obtain ⟨htake', hdrop', hcross'⟩ := List.pairwise_append.1 ha''
      obtain ⟨hyl, hly⟩ := hl
      split
      · next hshort =>
        refine ⟨(List.drop_suffix l a).trans (List.suffix_cons x a), hsuffix, ?_, fun z hz w hw => ?_,
          fun _ hlen => ?_⟩
        · simp only [List.pairwise_append, List.pairwise_cons, List.mem_cons]
          grind [R.trans, List.mem_of_mem_take]
        · simp only [List.mem_append, List.mem_cons] at hz hw
          grind [R.trans, List.mem_of_mem_take, List.mem_of_mem_drop]
        · exfalso
          rw [List.length_drop] at hlen
          omega
      · next hlong =>
        have hly' := hly (by omega)
        refine ⟨(List.drop_suffix l a).trans (List.suffix_cons x a), (List.suffix_cons y rest).trans hsuffix, ?_,
          fun z hz w hw => ?_, fun _ _ h => by simp at h⟩
        · simp only [List.pairwise_append, List.pairwise_cons, List.mem_append, List.mem_cons]
          grind [R.trans, List.mem_of_mem_take]
        · simp only [List.mem_append, List.mem_cons] at hz hw
          grind [R.trans, List.mem_of_mem_take, List.mem_of_mem_drop]

/-- What a merge rests on. -/
structure Merges (le : α → α → Prop) (wins : α → α → Bool) (turn : List α → List α → Turn α) : Prop where
  trans : ∀ {a b c}, le a b → le b c → le a c
  of_wins : ∀ {y x}, wins y x = true → le y x
  of_loses : ∀ {y x}, wins y x = false → le x y
  keeps : Keeps turn
  spec : ∀ {a b}, a.Pairwise le → b.Pairwise le → a ≠ [] → b ≠ [] → TurnSpec le a b (turn a b)

omit R in
theorem merge_sorted {wins : α → α → Bool} {turn : List α → List α → Turn α} (M : Merges le wins turn)
    (fuel mg : ℕ) (mode : Mode) (h : Mergeable le a b) (ha : 2 ≤ a.length) (hb : b ≠ [])
    (hfuel : a.length + b.length ≤ fuel) : (merge wins turn fuel mg mode a b).2.Pairwise le := by
  induction fuel generalizing mg mode a b with
  | zero => omega
  | succ fuel ih =>
    cases mode with
    | counting acount bcount =>
      match a, b with
      | x :: a, y :: b =>
        obtain ⟨hx, -⟩ := List.pairwise_cons.1 h.left
        obtain ⟨hy, -⟩ := List.pairwise_cons.1 h.right
        simp only [List.length_cons] at ha hfuel
        unfold merge
        by_cases hw : wins y x = true
        · -- `y` goes first
          have hyx := M.of_wins hw
          have hsub : Mergeable le (x :: a) b := h.suffix List.suffix_rfl (List.suffix_cons y b)
          have hfirst : ∀ z ∈ b ++ x :: a, le y z := by
            simp only [List.mem_append, List.mem_cons]
            grind [M.trans]
          rw [if_pos hw]
          split
          · next hnil =>
            rw [hnil] at hfirst hsub
            exact List.pairwise_cons.2 ⟨hfirst, hsub.left⟩
          · next hmore =>
            refine List.pairwise_cons.2 ⟨fun z hz => hfirst z ?_, ih _ _ hsub (by simpa using ha) hmore (by
              simp only [List.length_cons]
              omega)⟩
            exact (merge_perm M.keeps _ _ _ _ _).mem_iff.1 hz
        · -- `x` goes first
          have hxy := M.of_loses (Bool.eq_false_iff.2 hw)
          have hsub : Mergeable le a (y :: b) := h.suffix (List.suffix_cons x a) List.suffix_rfl
          have hfirst : ∀ z ∈ y :: b ++ a, le x z := by
            simp only [List.mem_append, List.mem_cons]
            grind [M.trans]
          rw [if_neg hw]
          split
          · next hshort => exact List.pairwise_cons.2 ⟨hfirst, hsub.done (.inr hshort)⟩
          · refine List.pairwise_cons.2 ⟨fun z hz => hfirst z ?_, ih _ _ hsub (by omega) (by simp) (by
              simp only [List.length_cons]
              omega)⟩
            exact (merge_perm M.keeps _ _ _ _ _).mem_iff.1 hz
    | galloping =>
      have hspec := M.spec h.left h.right (by rintro rfl; simp at ha) hb
      have hsub := h.suffix hspec.left hspec.right
      have hperm := M.keeps a b
      unfold merge
      dsimp only
      split
      · next hdone => exact List.pairwise_append.2 ⟨hspec.out, hsub.done hdone, hspec.before⟩
      · next hmore =>
        obtain ⟨hmoreb, hmorea⟩ := not_or.1 hmore
        have hout := List.length_pos_of_ne_nil (hspec.progress hmoreb (by omega))
        have hlen := hperm.length_eq
        simp only [List.length_append] at hlen
        refine List.pairwise_append.2 ⟨hspec.out, ih _ _ hsub (by omega) hmoreb (by omega), fun z hz w hw => ?_⟩
        exact hspec.before z hz w ((merge_perm M.keeps _ _ _ _ _).mem_iff.1 hw)

omit R in
theorem startMerge_sorted {wins : α → α → Bool} {turn : List α → List α → Turn α} (M : Merges le wins turn)
    (mg : ℕ) (h : Mergeable le a b) (hfirst : ∀ y ∈ b.head?, ∀ x ∈ a, le y x) :
    (startMerge wins turn mg a b).2.Pairwise le := by
  cases b with
  | nil => exact h.left
  | cons y b =>
    simp only [startMerge]
    split
    · next hdone =>
      rcases hdone with rfl | hdone
      · exact List.pairwise_cons.2 ⟨hfirst y rfl, h.left⟩
      · exact h.done (.inr hdone)
    · next hmore =>
      obtain ⟨hmoreb, hmorea⟩ := not_or.1 hmore
      have hsub : Mergeable le a b := h.suffix List.suffix_rfl (List.suffix_cons y b)
      refine List.pairwise_cons.2 ⟨fun z hz => ?_,
        merge_sorted M _ _ _ hsub (Nat.lt_of_not_le hmorea) hmoreb le_rfl⟩
      rcases List.mem_append.1 ((merge_perm M.keeps _ _ _ _ _).mem_iff.1 hz) with hz | hz
      · exact (List.pairwise_cons.1 h.right).1 z hz
      · exact hfirst y rfl z hz

theorem merges_lo : Merges le lt (turnLo lt) :=
  ⟨R.trans, R.of_lt, R.of_not_lt, keeps_turnLo, fun ha hb hne _ => turnLo_spec R ha hb hne⟩

theorem merges_hi : Merges (fun x y => le y x) (fun y x => lt x y) (turnHi lt) :=
  ⟨fun hab hbc => R.trans hbc hab, R.of_lt, R.of_not_lt, keeps_turnHi,
    fun ha hb _ hne => turnHi_spec R ha hb hne⟩

theorem mergeLo_sorted (mg : ℕ) (h : Mergeable le a b) (hfirst : ∀ y ∈ b.head?, ∀ x ∈ a, le y x) :
    (mergeLo lt mg a b).2.Pairwise le := startMerge_sorted (merges_lo R) mg h hfirst

theorem mergeHi_sorted (mg : ℕ) (h : Mergeable le a b) (hfirst : ∀ y ∈ b.head?, ∀ x ∈ a, le y x) :
    (mergeHi lt mg a b).2.Pairwise le := by
  unfold mergeHi
  rw [List.pairwise_reverse]
  refine startMerge_sorted (merges_hi R) mg ⟨?_, ?_, ?_⟩ ?_
  · exact List.pairwise_reverse.2 h.right
  · exact List.pairwise_reverse.2 h.left
  · rw [List.getLast?_reverse]
    exact fun y hy x hx => hfirst y hy x (List.mem_reverse.1 hx)
  · rw [List.head?_reverse]
    exact fun x hx y hy => h.last x hx y (List.mem_reverse.1 hy)

theorem Respects.refl (x : α) : le x x := by
  cases h : lt x x with
  | false => exact R.of_not_lt h
  | true => exact R.of_lt h

theorem le_getLast (ha : a.Pairwise le) {x : α} (hx : a.getLast? = some x) : ∀ z ∈ a, le z x := by
  obtain ⟨pre, rfl⟩ := List.getLast?_eq_some_iff.1 hx
  intro z hz
  rcases List.mem_append.1 hz with hz | hz
  · exact (List.pairwise_append.1 ha).2.2 z hz x (List.mem_singleton_self x)
  · rw [List.mem_singleton.1 hz]
    exact R.refl x

theorem mergeAt_sorted (mg : ℕ) (ha : a.Pairwise le) (hb : b.Pairwise le) :
    (mergeAt lt mg a b).2.Pairwise le := by
  unfold mergeAt
  cases hy : b.head? with
  | none => exact ha
  | some y =>
    obtain ⟨b', rfl⟩ := List.head?_eq_some_iff.1 hy
    have hfirst : ∀ z ∈ y :: b', le y z :=
      List.forall_mem_cons.2 ⟨R.refl y, (List.pairwise_cons.1 hb).1⟩
    have hk : Splits le y a (gallopRight lt y a 0) := by
      cases a with
      | nil => simp [Splits]
      | cons z a => exact splits_gallopRight R _ ha (Nat.succ_pos _)
    dsimp only
    generalize gallopRight lt y a 0 = k at hk ⊢
    obtain ⟨hle, hge⟩ := hk
    have hsplit : (a.take k ++ a.drop k).Pairwise le := by rwa [List.take_append_drop]
    obtain ⟨htake, hdrop, hcross⟩ := List.pairwise_append.1 hsplit
    cases hx : (a.drop k).getLast? with
    | none =>
      have hall := List.take_of_length_le (List.drop_eq_nil_iff.1 (List.getLast?_eq_none_iff.1 hx))
      rw [hall] at hle
      exact List.pairwise_append.2 ⟨ha, hb, fun z hz w hw => R.trans (hle z hz) (hfirst w hw)⟩
    | some x =>
      have hlast := le_getLast R hdrop hx
      obtain ⟨hbx, hxb⟩ := splits_gallopLeft R x hb
        (show (y :: b').length - 1 < (y :: b').length by simp)
      dsimp only
      generalize gallopLeft lt x (y :: b') ((y :: b').length - 1) = nb at hbx hxb ⊢
      have hsplit' : ((y :: b').take nb ++ (y :: b').drop nb).Pairwise le := by rwa [List.take_append_drop]
      obtain ⟨htake', hdrop', hcross'⟩ := List.pairwise_append.1 hsplit'
      have hmergeable : Mergeable le (a.drop k) ((y :: b').take nb) := by
        refine ⟨hdrop, htake', fun z hz w hw => ?_⟩
        obtain rfl := Option.some.inj (hx.symm.trans hz)
        exact hbx w hw
      have hhead : ∀ z ∈ ((y :: b').take nb).head?, ∀ w ∈ a.drop k, le z w := by
        intro z hz w hw
        cases nb with
        | zero => cases hz
        | succ nb =>
          obtain rfl := Option.some.inj hz
          exact hge w hw
      have hmerged : ∀ m, m = (if nb = 0 then (mg, a.drop k)
          else if (a.drop k).length ≤ nb then mergeLo lt mg (a.drop k) ((y :: b').take nb)
          else mergeHi lt mg (a.drop k) ((y :: b').take nb)) →
          m.2.Pairwise le ∧ ∀ z ∈ m.2, z ∈ a.drop k ∨ z ∈ (y :: b').take nb := by
        rintro m rfl
        split
        · exact ⟨hdrop, fun z hz => .inl hz⟩
        · split
          · exact ⟨mergeLo_sorted R mg hmergeable hhead, fun z hz =>
              List.mem_append.1 ((mergeLo_perm _ _ _).mem_iff.1 hz)⟩
          · exact ⟨mergeHi_sorted R mg hmergeable hhead, fun z hz =>
              List.mem_append.1 ((mergeHi_perm _ _ _).mem_iff.1 hz)⟩
      obtain ⟨hsorted, hmem⟩ := hmerged _ rfl
      rw [List.pairwise_append, List.pairwise_append]
      refine ⟨⟨htake, hsorted, fun z hz w hw => ?_⟩, hdrop', fun z hz w hw => ?_⟩
      · rcases hmem w hw with hw | hw
        · exact hcross z hz w hw
        · exact R.trans (hle z hz) (hfirst w (List.mem_of_mem_take hw))
      · rcases List.mem_append.1 hz with hz | hz
        · exact R.trans (hle z hz) (hfirst w (List.mem_of_mem_drop hw))
        · rcases hmem z hz with hz | hz
          · exact R.trans (hlast z hz) (hxb w hw)
          · exact hcross' z hz w hw

/-! ### The stack -/

theorem collapse_sorted (power mg : ℕ) (top : Pending α) (pending : List (Pending α))
    (htop : top.run.Pairwise le) (h : ∀ p ∈ pending, p.run.Pairwise le) :
    ∀ p ∈ (collapse lt power mg top pending).2, p.run.Pairwise le := by
  induction pending generalizing mg top with
  | nil => exact List.forall_mem_singleton.2 htop
  | cons second rest ih =>
    obtain ⟨hsecond, hrest⟩ := List.forall_mem_cons.1 h
    unfold collapse
    split
    · exact ih _ _ (mergeAt_sorted R mg hsecond htop) hrest
    · exact List.forall_mem_cons.2 ⟨htop, h⟩

theorem foundNewRun_sorted (n mg n2 : ℕ) (pending : List (Pending α)) (h : ∀ p ∈ pending, p.run.Pairwise le) :
    ∀ p ∈ (foundNewRun lt n mg n2 pending).2, p.run.Pairwise le := by
  cases pending with
  | nil => exact h
  | cons top rest =>
    obtain ⟨htop, hrest⟩ := List.forall_mem_cons.1 h
    exact collapse_sorted R _ _ _ _ htop hrest

theorem forceCollapse_sorted (fuel mg : ℕ) (pending : List (Pending α)) (hfuel : pending.length ≤ fuel)
    (h : ∀ p ∈ pending, p.run.Pairwise le) : (forceCollapse lt fuel mg pending).Pairwise le := by
  induction fuel generalizing mg pending with
  | zero =>
    obtain rfl := List.length_eq_zero_iff.1 (Nat.le_zero.1 hfuel)
    exact List.Pairwise.nil
  | succ fuel ih =>
    match pending with
    | [] => exact List.Pairwise.nil
    | [top] =>
      unfold forceCollapse
      simpa [contents] using h top (List.mem_singleton_self top)
    | [top, second] =>
      unfold forceCollapse
      exact mergeAt_sorted R mg (h second (by simp)) (h top (by simp))
    | top :: second :: third :: rest =>
      simp only [List.forall_mem_cons] at h
      obtain ⟨htop, hsecond, hthird, hrest⟩ := h
      simp only [List.length_cons] at hfuel
      unfold forceCollapse
      split
      · refine ih _ _ (by simp only [List.length_cons]; omega) ?_
        simp only [List.forall_mem_cons]
        exact ⟨htop, mergeAt_sorted R mg hthird hsecond, hrest⟩
      · refine ih _ _ (by simp only [List.length_cons]; omega) ?_
        simp only [List.forall_mem_cons]
        exact ⟨mergeAt_sorted R mg hsecond htop, hthird, hrest⟩

theorem cut_sorted (n least fuel mg : ℕ) (pending : List (Pending α)) (rest : List α)
    (hfuel : rest.length ≤ fuel) (h : ∀ p ∈ pending, p.run.Pairwise le) :
    (cut lt n least fuel mg pending rest).Pairwise le := by
  induction fuel generalizing mg pending rest with
  | zero =>
    obtain rfl := List.length_eq_zero_iff.1 (Nat.le_zero.1 hfuel)
    unfold cut
    rw [List.append_nil]
    exact forceCollapse_sorted R _ _ _ le_rfl h
  | succ fuel ih =>
    cases rest with
    | nil =>
      unfold cut
      rw [List.append_nil]
      exact forceCollapse_sorted R _ _ _ le_rfl h
    | cons x rest =>
      have hpos := List.length_pos_of_ne_nil (@nextRun_ne_nil _ lt least x rest)
      unfold cut
      refine ih _ _ _ ?_ (List.forall_mem_cons.2 ⟨nextRun_sorted R least _, foundNewRun_sorted R _ _ _ _ h⟩)
      rw [List.length_drop]
      simp only [List.length_cons] at hfuel ⊢
      omega

/-- **The sort sorts.** -/
theorem pairwise_sorted (xs : List α) : (sorted lt xs).Pairwise le :=
  cut_sorted R _ _ _ _ [] xs le_rfl fun _ h => absurd h List.not_mem_nil

end Order

/-! ## Only the comparison counts -/

section Map
variable {β : Type} (lt : α → α → Bool) (f : β → α)

/-- The comparison of the images. -/
def comap (lt : α → α → Bool) (f : β → α) (x y : β) : Bool := lt (f x) (f y)

theorem gallopRight_map (key : β) (run : List β) (hint : ℕ) :
    gallopRight lt (f key) (run.map f) hint = gallopRight (comap lt f) key run hint := by
  unfold gallopRight comap
  simp only [List.getD_map, List.length_map]

theorem gallopLeft_map (key : β) (run : List β) (hint : ℕ) :
    gallopLeft lt (f key) (run.map f) hint = gallopLeft (comap lt f) key run hint := by
  unfold gallopLeft comap
  simp only [List.getD_map, List.length_map]

theorem goesOn_map (more : α → α → Bool) (last : β) (rest : List β) :
    goesOn more (f last) (rest.map f) = goesOn (comap more f) last rest := by
  induction rest generalizing last with
  | nil => rfl
  | cons x rest ih =>
    rw [List.map_cons, goesOn, goesOn, ih]
    rfl

theorem countRun_map (rest : List β) : countRun lt (rest.map f) = countRun (comap lt f) rest := by
  match rest with
  | [] => rfl
  | [_] => rfl
  | x :: y :: rest =>
    simp only [List.map_cons, countRun, goesOn_map]
    rfl

theorem binarysort_map (run rest : List β) :
    binarysort lt (run.map f) (rest.map f) = (binarysort (comap lt f) run rest).map f := by
  unfold binarysort
  induction rest generalizing run with
  | nil => rfl
  | cons x rest ih =>
    have hinsert : insertPivot lt (run.map f) (f x) = (insertPivot (comap lt f) run x).map f := by
      unfold insertPivot comap
      simp
    rw [List.map_cons, List.foldl_cons, List.foldl_cons, hinsert, ih]

theorem nextRun_map (least : ℕ) (rest : List β) :
    nextRun lt least (rest.map f) = (nextRun (comap lt f) least rest).map f := by
  unfold nextRun
  rw [countRun_map]
  generalize countRun (comap lt f) rest = c
  obtain ⟨n, descending⟩ := c
  dsimp only
  have hrun : (if descending = true then ((rest.map f).take n).reverse else (rest.map f).take n) =
      (if descending = true then (rest.take n).reverse else rest.take n).map f := by
    split <;> simp
  rw [hrun, ← List.map_drop, ← List.map_take, binarysort_map]
  split <;> rfl

def Turn.map (t : Turn β) : Turn α := ⟨t.out.map f, t.a.map f, t.b.map f, t.again⟩

theorem turnLo_map (a b : List β) : turnLo lt (a.map f) (b.map f) = (turnLo (comap lt f) a b).map f := by
  cases b with
  | nil => rfl
  | cons y b =>
    simp only [List.map_cons, turnLo, gallopRight_map, ← List.map_drop]
    generalize gallopRight (comap lt f) y a 0 = k
    match hd : a.drop k with
    | [] => simp [Turn.map]
    | [x] => simp [Turn.map]
    | x :: x' :: rest =>
      simp only [List.map_cons, gallopLeft_map, List.length_map]
      split <;> simp [Turn.map]

theorem turnHi_map (a b : List β) : turnHi lt (a.map f) (b.map f) = (turnHi (comap lt f) a b).map f := by
  cases a with
  | nil => rfl
  | cons x a =>
    simp only [List.map_cons, turnHi, ← List.map_reverse, gallopRight_map, ← List.map_drop, List.length_map]
    generalize b.length - gallopRight (comap lt f) x b.reverse (b.length - 1) = k
    cases hd : b.drop k with
    | nil => simp [Turn.map]
    | cons y rest =>
      simp only [List.map_cons, gallopLeft_map]
      generalize (if a.length ≤ 1 then 0 else a.length - gallopLeft (comap lt f) y a.reverse (a.length - 1)) = l
      split <;> simp [Turn.map]

/-- A merge, of runs or of their images. -/
theorem merge_map {wins : α → α → Bool} {turn : List α → List α → Turn α} {turn' : List β → List β → Turn β}
    (hturn : ∀ a b, turn (a.map f) (b.map f) = (turn' a b).map f) (fuel mg : ℕ) (mode : Mode) (a b : List β) :
    merge wins turn fuel mg mode (a.map f) (b.map f) =
      Prod.map id (List.map f) (merge (comap wins f) turn' fuel mg mode a b) := by
  induction fuel generalizing mg mode a b with
  | zero => simp [merge]
  | succ fuel ih =>
    cases mode with
    | counting acount bcount =>
      match a, b with
      | [], b => simp [merge]
      | x :: a, [] => simp [merge]
      | x :: a, y :: b =>
        have hx := fun mg mode => ih mg mode (x :: a) b
        have hy := fun mg mode => ih mg mode a (y :: b)
        rw [List.map_cons] at hx hy
        simp only [List.map_cons, merge, hx, hy, List.map_eq_nil_iff, List.length_map]
        change (if wins (f y) (f x) = true then _ else _) = Prod.map id (List.map f) (if wins (f y) (f x) = true then _ else _)
        split
        · split <;> simp
        · split <;> simp
    | galloping =>
      simp only [merge, hturn, Turn.map, ih, List.map_eq_nil_iff, List.length_map]
      split <;> simp

theorem startMerge_map {wins : α → α → Bool} {turn : List α → List α → Turn α}
    {turn' : List β → List β → Turn β} (hturn : ∀ a b, turn (a.map f) (b.map f) = (turn' a b).map f) (mg : ℕ)
    (a b : List β) : startMerge wins turn mg (a.map f) (b.map f) =
      Prod.map id (List.map f) (startMerge (comap wins f) turn' mg a b) := by
  cases b with
  | nil => rfl
  | cons y b =>
    simp only [List.map_cons, startMerge, merge_map f hturn, List.map_eq_nil_iff, List.length_map]
    split <;> simp

theorem mergeAt_map (mg : ℕ) (a b : List β) :
    mergeAt lt mg (a.map f) (b.map f) = Prod.map id (List.map f) (mergeAt (comap lt f) mg a b) := by
  have hlo : ∀ a b : List β, mergeLo lt mg (a.map f) (b.map f) =
      Prod.map id (List.map f) (mergeLo (comap lt f) mg a b) :=
    startMerge_map f (turnLo_map lt f) mg
  have hhi : ∀ a b : List β, mergeHi lt mg (a.map f) (b.map f) =
      Prod.map id (List.map f) (mergeHi (comap lt f) mg a b) := by
    intro a b
    unfold mergeHi
    rw [← List.map_reverse, ← List.map_reverse, startMerge_map f (turnHi_map lt f)]
    exact Prod.ext rfl List.map_reverse.symm
  cases b with
  | nil => rfl
  | cons y b =>
    simp only [mergeAt, List.map_cons, List.head?_cons, gallopRight_map, ← List.map_drop, List.getLast?_map]
    cases (a.drop (gallopRight (comap lt f) y a 0)).getLast? with
    | none => simp
    | some x =>
      simp only [Option.map_some, ← List.map_cons, gallopLeft_map, List.length_map, ← List.map_take, hlo, hhi,
        ← List.map_drop]
      split
      · simp
      · split <;> simp

def Pending.map (p : Pending β) : Pending α := ⟨p.start, p.run.map f, p.power⟩

theorem contents_map (pending : List (Pending β)) :
    contents (pending.map (Pending.map f)) = (contents pending).map f := by
  unfold contents
  rw [List.map_flatten, List.map_map, ← List.map_reverse, List.map_map]
  rfl

theorem collapse_map (power mg : ℕ) (top : Pending β) (pending : List (Pending β)) :
    collapse lt power mg (top.map f) (pending.map (Pending.map f)) =
      Prod.map id (List.map (Pending.map f)) (collapse (comap lt f) power mg top pending) := by
  induction pending generalizing mg top with
  | nil => rfl
  | cons second rest ih =>
    simp only [List.map_cons, collapse]
    have hmerge := mergeAt_map lt f mg second.run top.run
    by_cases h : power < second.power
    · have h' : power < (second.map f).power := h
      rw [if_pos h, if_pos h']
      change collapse lt power (mergeAt lt mg (second.run.map f) (top.run.map f)).1
        ⟨second.start, (mergeAt lt mg (second.run.map f) (top.run.map f)).2, second.power⟩ _ = _
      rw [hmerge]
      exact ih _ { second with run := (mergeAt (comap lt f) mg second.run top.run).2 }
    · have h' : ¬ power < (second.map f).power := h
      rw [if_neg h, if_neg h']
      rfl

theorem foundNewRun_map (n mg n2 : ℕ) (pending : List (Pending β)) :
    foundNewRun lt n mg n2 (pending.map (Pending.map f)) =
      Prod.map id (List.map (Pending.map f)) (foundNewRun (comap lt f) n mg n2 pending) := by
  cases pending with
  | nil => rfl
  | cons top rest =>
    have hlen : (top.map f).run.length = top.run.length := List.length_map f
    simp only [List.map_cons, foundNewRun, hlen]
    exact collapse_map lt f _ mg top rest

theorem forceCollapse_map (fuel mg : ℕ) (pending : List (Pending β)) :
    forceCollapse lt fuel mg (pending.map (Pending.map f)) =
      (forceCollapse (comap lt f) fuel mg pending).map f := by
  induction fuel generalizing mg pending with
  | zero => exact contents_map f pending
  | succ fuel ih =>
    match pending with
    | [] => rfl
    | [top] => exact contents_map f [top]
    | [top, second] =>
      have hmerge := mergeAt_map lt f mg second.run top.run
      exact congrArg Prod.snd hmerge
    | top :: second :: third :: rest =>
      have hlen : ∀ p : Pending β, (p.map f).run.length = p.run.length := fun p => List.length_map f
      have hthird := mergeAt_map lt f mg third.run second.run
      have hsecond := mergeAt_map lt f mg second.run top.run
      have htop := fun mg run => ih mg (top :: { third with run := run } :: rest)
      have hrest := fun mg run => ih mg ({ second with run := run } :: third :: rest)
      simp only [List.map_cons, forceCollapse, hlen]
      split
      · exact (congrArg (fun m => forceCollapse lt fuel m.1 (top.map f :: ⟨third.start, m.2, third.power⟩ ::
          rest.map (Pending.map f))) hthird).trans (htop (mergeAt (comap lt f) mg third.run second.run).1
          (mergeAt (comap lt f) mg third.run second.run).2)
      · exact (congrArg (fun m => forceCollapse lt fuel m.1 (⟨second.start, m.2, second.power⟩ :: third.map f ::
          rest.map (Pending.map f))) hsecond).trans (hrest (mergeAt (comap lt f) mg second.run top.run).1
          (mergeAt (comap lt f) mg second.run top.run).2)

theorem cut_map (n least fuel mg : ℕ) (pending : List (Pending β)) (rest : List β) :
    cut lt n least fuel mg (pending.map (Pending.map f)) (rest.map f) =
      (cut (comap lt f) n least fuel mg pending rest).map f := by
  have hdone : ∀ (mg : ℕ) (pending : List (Pending β)) (rest : List β),
      forceCollapse lt (pending.map (Pending.map f)).length mg (pending.map (Pending.map f)) ++ rest.map f =
        (forceCollapse (comap lt f) pending.length mg pending ++ rest).map f := by
    intro mg pending rest
    rw [List.length_map, forceCollapse_map, List.map_append]
  induction fuel generalizing mg pending rest with
  | zero => exact hdone mg pending rest
  | succ fuel ih =>
    cases rest with
    | nil => exact hdone mg pending []
    | cons x rest =>
      have hrun := nextRun_map lt f least (x :: rest)
      rw [List.map_cons] at hrun
      simp only [List.map_cons, cut, hrun, List.length_map, foundNewRun_map]
      rw [← List.map_cons, ← List.map_drop]
      exact ih _ (⟨n - (rest.length + 1), nextRun (comap lt f) least (x :: rest), 0⟩ :: _) _

/-- The sort of images is the image of the sort by the images. -/
theorem sorted_map (xs : List β) : sorted lt (xs.map f) = (sorted (comap lt f) xs).map f := by
  unfold sorted
  rw [List.length_map]
  exact cut_map lt f _ _ _ _ [] xs

end Map

/-- What the comparison respects on the elements of a list, their sort is in
order by. -/
theorem pairwise_sorted_of {lt : α → α → Bool} {le : α → α → Prop} {xs : List α}
    (htrans : ∀ a ∈ xs, ∀ b ∈ xs, ∀ c ∈ xs, le a b → le b c → le a c)
    (hlt : ∀ a ∈ xs, ∀ b ∈ xs, lt a b = true → le a b)
    (hnot : ∀ a ∈ xs, ∀ b ∈ xs, lt a b = false → le b a) : (sorted lt xs).Pairwise le := by
  have R : Respects (comap lt (Subtype.val : {x // x ∈ xs} → α)) fun a b => le a.1 b.1 :=
    ⟨fun {a b c} => htrans a.1 a.2 b.1 b.2 c.1 c.2, fun {a b} => hlt a.1 a.2 b.1 b.2,
      fun {a b} => hnot a.1 a.2 b.1 b.2⟩
  have hmap := sorted_map lt (Subtype.val : {x // x ∈ xs} → α) xs.attach
  rw [List.attach_map_subtype_val] at hmap
  rw [hmap, List.pairwise_map]
  exact pairwise_sorted R xs.attach

end Mdrj.Core.ListSort
