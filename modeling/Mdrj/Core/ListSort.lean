import Mathlib.Data.List.GetD
import Mathlib.Data.List.Sort

/-!
# The sort of Python lists

`list.sort` and `sorted` compare with `<` alone. Where the comparison is no
order, as on floats with a NaN among them, the result depends on which elements
are compared, so the algorithm is followed here step by step: the list is cut
into runs, short runs are extended by binary insertion, and neighbouring runs
are merged, in strides that double once one of them wins too often. It is the
sort of CPython 3.11 (`Objects/listobject.c`), whose words the names are.

Results:
* `gallop_spec`: a gallop ends where the search of the whole run would, between
  an element that lies left of the place and one that does not.
* `sorted_perm`: whatever the comparison is, nothing is lost or repeated.

`ListOrder` is about the order of the result.
-/
namespace Mdrj.Core.ListSort

variable {α : Type}

/-! ## Searching -/

/-- A binary search: `left` tells of an index whether the place is there or to
the left of it. -/
def search (left : ℕ → Bool) : ℕ → ℕ → ℕ → ℕ
  | 0, l, _ => l
  | fuel + 1, l, r =>
    if l < r then
      let m := l + (r - l) / 2
      if left m then search left fuel l m else search left fuel (m + 1) r
    else l

/-- The strides of a gallop: the last offset passed, and the one it stops at. -/
def stride (stop : ℕ → Bool) (maxofs : ℕ) : ℕ → ℕ → ℕ → ℕ × ℕ
  | 0, lastofs, _ => (lastofs, maxofs)
  | fuel + 1, lastofs, ofs =>
    if ofs < maxofs then
      if stop ofs then (lastofs, ofs) else stride stop maxofs fuel ofs (2 * ofs + 1)
    else (lastofs, maxofs)

def gallop (left : ℕ → Bool) (n hint : ℕ) : ℕ :=
  if left hint then
    let (lastofs, ofs) := stride (fun ofs => !left (hint - ofs)) (hint + 1) (hint + 1) 0 1
    search left n (hint + 1 - ofs) (hint - lastofs)
  else
    let (lastofs, ofs) := stride (fun ofs => left (hint + ofs)) (n - hint) (n - hint) 0 1
    search left n (hint + lastofs + 1) (hint + ofs)

section Comparison
variable (lt : α → α → Bool)

/-- The place of a key in a run, to the right of what equals it. -/
def gallopRight (key : α) (run : List α) (hint : ℕ) : ℕ :=
  gallop (fun m => lt key (run.getD m key)) run.length hint

/-- The place of a key in a run, to the left of what equals it. -/
def gallopLeft (key : α) (run : List α) (hint : ℕ) : ℕ :=
  gallop (fun m => !lt (run.getD m key) key) run.length hint

/-! ## Runs -/

/-- For how many elements a run goes on. -/
def goesOn (more : α → α → Bool) : α → List α → ℕ
  | _, [] => 0
  | last, x :: rest => if more x last then goesOn more x rest + 1 else 0

/-- The length of the first run, and whether it descends. -/
def countRun : List α → ℕ × Bool
  | [] => (0, false)
  | [_] => (1, false)
  | x :: y :: rest =>
    if lt y x then (goesOn lt y rest + 2, true) else (goesOn (fun a b => !lt a b) y rest + 2, false)

/-- The pivot goes into a run by binary search. -/
def insertPivot (run : List α) (pivot : α) : List α :=
  let place := search (fun m => lt pivot (run.getD m pivot)) run.length 0 run.length
  run.take place ++ pivot :: run.drop place

def binarysort (run rest : List α) : List α := rest.foldl (insertPivot lt) run

/-! ## Merging

One of the two runs, `a`, is copied away; `b` is in place, and what is merged
fills the gap. `merge_lo` goes from the left and copies the left run,
`merge_hi` from the right with the right run, here on the reversed runs. Either
ends when `b` is used up or `a` down to its last element, which belongs at the
end. -/

def minGallop : ℕ := 7

/-- Elements are taken one at a time, with a count of how often either run has
won in a row, or by strides. -/
inductive Mode where
  | counting (acount bcount : ℕ)
  | galloping

/-- Once a run has won `min_gallop` times, strides are tried. -/
def Mode.next (mode : Mode) (count mg : ℕ) : ℕ × Mode :=
  if mg ≤ count then (mg + 1, .galloping) else (mg, mode)

/-- What one turn by strides has merged, what it leaves of the runs, and whether
the strides were long. -/
structure Turn (α : Type) where
  out : List α
  a : List α
  b : List α
  again : Bool

def turnLo (a : List α) : List α → Turn α
  | [] => ⟨[], a, [], false⟩
  | y :: b =>
    let k := gallopRight lt y a 0
    match a.drop k with
    | x :: x' :: rest =>
      let l := gallopLeft lt x b 0
      if b.length ≤ l then ⟨a.take k ++ y :: b, x :: x' :: rest, [], false⟩
      else ⟨a.take k ++ y :: b.take l ++ [x], x' :: rest, b.drop l, minGallop ≤ k || minGallop ≤ l⟩
    | rest => ⟨a.take k, rest, y :: b, false⟩

def turnHi : List α → List α → Turn α
  | [], b => ⟨[], [], b, false⟩
  | x :: a, b =>
    let k := b.length - gallopRight lt x b.reverse (b.length - 1)
    match b.drop k with
    | [] => ⟨b, x :: a, [], false⟩
    | y :: rest =>
      let l := if a.length ≤ 1 then 0 else a.length - gallopLeft lt y a.reverse (a.length - 1)
      if a.length ≤ l + 1 then ⟨b.take k ++ x :: a.take l, a.drop l, y :: rest, false⟩
      else ⟨b.take k ++ x :: a.take l ++ [y], a.drop l, rest, minGallop ≤ k || minGallop ≤ l⟩

/-- `wins y x` tells whether `y` of `b` goes before `x` of `a`. The result comes
with the `min_gallop` of the next merge. -/
def merge (wins : α → α → Bool) (turn : List α → List α → Turn α) :
    ℕ → ℕ → Mode → List α → List α → ℕ × List α
  | fuel + 1, mg, .counting acount bcount, x :: a, y :: b =>
    if wins y x then
      if b = [] then (mg, y :: x :: a)
      else
        let (mg, mode) := Mode.next (.counting 0 (bcount + 1)) (bcount + 1) mg
        let (mg, merged) := merge wins turn fuel mg mode (x :: a) b
        (mg, y :: merged)
    else
      if a.length ≤ 1 then (mg, x :: y :: b ++ a)
      else
        let (mg, mode) := Mode.next (.counting (acount + 1) 0) (acount + 1) mg
        let (mg, merged) := merge wins turn fuel mg mode a (y :: b)
        (mg, x :: merged)
  | fuel + 1, mg, .galloping, a, b =>
    let mg := if 1 < mg then mg - 1 else mg
    let t := turn a b
    if t.b = [] ∨ t.a.length ≤ 1 then (mg, t.out ++ (t.b ++ t.a))
    else
      let (mg, mode) := if t.again then (mg, .galloping) else (mg + 1, .counting 0 0)
      let (mg, merged) := merge wins turn fuel mg mode t.a t.b
      (mg, t.out ++ merged)
  | _, mg, _, a, b => (mg, b ++ a)

/-- The first of `b` is known to go first. -/
def startMerge (wins : α → α → Bool) (turn : List α → List α → Turn α) (mg : ℕ) (a : List α) :
    List α → ℕ × List α
  | [] => (mg, a)
  | y :: b =>
    if b = [] ∨ a.length ≤ 1 then (mg, y :: b ++ a)
    else
      let (mg, merged) := merge wins turn (a.length + b.length) mg (.counting 0 0) a b
      (mg, y :: merged)

def mergeLo (mg : ℕ) (a b : List α) : ℕ × List α := startMerge lt (turnLo lt) mg a b

def mergeHi (mg : ℕ) (a b : List α) : ℕ × List α :=
  let (mg, merged) := startMerge (fun y x => lt x y) (turnHi lt) mg b.reverse a.reverse
  (mg, merged.reverse)

/-- Two neighbouring runs: what is in place already is left alone, and the
shorter one is copied. -/
def mergeAt (mg : ℕ) (a b : List α) : ℕ × List α :=
  match b.head? with
  | none => (mg, a)
  | some y =>
    let k := gallopRight lt y a 0
    match (a.drop k).getLast? with
    | none => (mg, a ++ b)
    | some x =>
      let nb := gallopLeft lt x b (b.length - 1)
      let (mg, merged) := if nb = 0 then (mg, a.drop k)
        else if (a.drop k).length ≤ nb then mergeLo lt mg (a.drop k) (b.take nb)
        else mergeHi lt mg (a.drop k) (b.take nb)
      (mg, a.take k ++ merged ++ b.drop nb)

/-! ## The stack of runs -/

structure Pending (α : Type) where
  start : ℕ
  run : List α
  power : ℕ := 0

/-- The elements on the stack, whose top comes first. -/
def contents (pending : List (Pending α)) : List α := (pending.reverse.map Pending.run).flatten

/-- The first bit in which the midpoints of two runs, as fractions of the
length, differ; both are given twice. -/
def powerloop (n : ℕ) : ℕ → ℕ → ℕ → ℕ
  | 0, _, _ => 0
  | fuel + 1, a, b =>
    if n ≤ a then powerloop n fuel (2 * (a - n)) (2 * (b - n)) + 1
    else if n ≤ b then 1
    else powerloop n fuel (2 * a) (2 * b) + 1

/-- The runs of a higher power are merged before a new one is pushed. -/
def collapse (power mg : ℕ) (top : Pending α) : List (Pending α) → ℕ × List (Pending α)
  | [] => (mg, [{ top with power }])
  | second :: rest =>
    if power < second.power then
      let (mg, merged) := mergeAt lt mg second.run top.run
      collapse power mg { second with run := merged } rest
    else (mg, { top with power } :: second :: rest)

def foundNewRun (n mg n2 : ℕ) : List (Pending α) → ℕ × List (Pending α)
  | [] => (mg, [])
  | top :: rest =>
    let a := 2 * top.start + top.run.length
    collapse lt (powerloop n n a (a + top.run.length + n2)) mg top rest

/-- All runs are merged, the smaller of two pairs first. -/
def forceCollapse : ℕ → ℕ → List (Pending α) → List α
  | fuel + 1, mg, top :: second :: third :: rest =>
    if third.run.length < top.run.length then
      let (mg, merged) := mergeAt lt mg third.run second.run
      forceCollapse fuel mg (top :: { third with run := merged } :: rest)
    else
      let (mg, merged) := mergeAt lt mg second.run top.run
      forceCollapse fuel mg ({ second with run := merged } :: third :: rest)
  | _ + 1, mg, [top, second] => (mergeAt lt mg second.run top.run).2
  | _, _, pending => contents pending

/-- `merge_compute_minrun`: the leading bits of the length, rounded up. -/
def minrun : ℕ → ℕ → ℕ → ℕ
  | 0, r, n => n + r
  | fuel + 1, r, n => if 64 ≤ n then minrun fuel (max r (n % 2)) (n / 2) else n + r

/-- The run at the start of the rest, extended to the smallest length. -/
def nextRun (least : ℕ) (rest : List α) : List α :=
  let (n, descending) := countRun lt rest
  let run := if descending then (rest.take n).reverse else rest.take n
  if n < least then binarysort lt run ((rest.drop n).take (least - n)) else run

def cut (n least : ℕ) : ℕ → ℕ → List (Pending α) → List α → List α
  | fuel + 1, mg, pending, x :: rest =>
    let run := nextRun lt least (x :: rest)
    let (mg, pending) := foundNewRun lt n mg run.length pending
    let pushed := ⟨n - (rest.length + 1), run, 0⟩ :: pending
    cut n least fuel mg pushed ((x :: rest).drop run.length)
  | _, mg, pending, rest => forceCollapse lt pending.length mg pending ++ rest

/-- `sorted(xs)`, where `lt` is the `<` of the elements. -/
def sorted (xs : List α) : List α :=
  cut lt xs.length (minrun xs.length 0 xs.length) xs.length minGallop [] xs

end Comparison

/-! ## The places that a search finds -/

theorem search_spec (left : ℕ → Bool) (fuel l r : ℕ) (hlr : l ≤ r) (hfuel : r - l ≤ fuel) :
    l ≤ search left fuel l r ∧ search left fuel l r ≤ r ∧
      (search left fuel l r = l ∨ left (search left fuel l r - 1) = false) ∧
      (search left fuel l r = r ∨ left (search left fuel l r) = true) := by
  induction fuel generalizing l r with
  | zero =>
    obtain rfl : l = r := by omega
    exact ⟨le_rfl, le_rfl, .inl rfl, .inl rfl⟩
  | succ fuel ih =>
    unfold search
    by_cases hlt : l < r
    · have hm : l + (r - l) / 2 < r := by omega
      rw [if_pos hlt]
      dsimp only
      by_cases hleft : left (l + (r - l) / 2) = true
      · rw [if_pos hleft]
        obtain ⟨h1, h2, h3, h4⟩ := ih (l := l) (r := l + (r - l) / 2) (by omega) (by omega)
        refine ⟨h1, by omega, h3, h4.elim (fun h => .inr ?_) .inr⟩
        rw [h, hleft]
      · rw [if_neg hleft]
        obtain ⟨h1, h2, h3, h4⟩ := ih (l := l + (r - l) / 2 + 1) (r := r) (by omega) (by omega)
        refine ⟨by omega, h2, h3.elim (fun h => .inr ?_) .inr, h4⟩
        rw [h, Nat.add_sub_cancel]
        exact Bool.eq_false_iff.2 hleft
    · rw [if_neg hlt]
      exact ⟨le_rfl, hlr, .inl rfl, .inl (by omega)⟩

theorem stride_spec (stop : ℕ → Bool) (maxofs fuel : ℕ) {lastofs ofs : ℕ} (hlast : lastofs < maxofs)
    (hofs : lastofs < ofs) (hstop : lastofs = 0 ∨ stop lastofs = false) :
    (stride stop maxofs fuel lastofs ofs).1 < (stride stop maxofs fuel lastofs ofs).2 ∧
      (stride stop maxofs fuel lastofs ofs).2 ≤ maxofs ∧
      ((stride stop maxofs fuel lastofs ofs).1 = 0 ∨ stop (stride stop maxofs fuel lastofs ofs).1 = false) ∧
      ((stride stop maxofs fuel lastofs ofs).2 = maxofs ∨ stop (stride stop maxofs fuel lastofs ofs).2 = true) := by
  induction fuel generalizing lastofs ofs with
  | zero => exact ⟨hlast, le_rfl, hstop, .inl rfl⟩
  | succ fuel ih =>
    unfold stride
    by_cases hlt : ofs < maxofs
    · rw [if_pos hlt]
      by_cases hs : stop ofs = true
      · rw [if_pos hs]
        exact ⟨hofs, hlt.le, hstop, .inr hs⟩
      · rw [if_neg hs]
        exact ih hlt (by omega) (.inr (Bool.eq_false_iff.2 hs))
    · rw [if_neg hlt]
      exact ⟨hlast, le_rfl, hstop, .inl rfl⟩

theorem gallop_spec (left : ℕ → Bool) {n hint : ℕ} (hhint : hint < n) : gallop left n hint ≤ n ∧
    (gallop left n hint = 0 ∨ left (gallop left n hint - 1) = false) ∧
    (gallop left n hint = n ∨ left (gallop left n hint) = true) := by
  unfold gallop
  by_cases hleft : left hint = true
  · rw [if_pos hleft]
    obtain ⟨h1, h2, h3, h4⟩ := stride_spec (fun ofs => !left (hint - ofs)) (hint + 1) (hint + 1)
      (Nat.succ_pos hint) Nat.zero_lt_one (.inl rfl)
    generalize stride _ _ _ _ _ = s at h1 h2 h3 h4
    obtain ⟨lastofs, ofs⟩ := s
    dsimp only at h1 h2 h3 h4 ⊢
    simp only [Bool.not_eq_eq_eq_not, Bool.not_false, Bool.not_true] at h3 h4
    obtain ⟨g1, g2, g3, g4⟩ := search_spec left n (hint + 1 - ofs) (hint - lastofs)
      (by omega) (by omega)
    refine ⟨by omega, ?_, ?_⟩
    · rcases g3 with g3 | g3
      · rcases h4 with h4 | h4
        · exact .inl (by omega)
        · rw [g3]
          exact .inr (by rwa [show hint + 1 - ofs - 1 = hint - ofs by omega])
      · exact .inr g3
    · rcases g4 with g4 | g4
      · rw [g4]
        rcases h3 with rfl | h3
        · exact .inr hleft
        · exact .inr h3
      · exact .inr g4
  · rw [if_neg hleft]
    obtain ⟨h1, h2, h3, h4⟩ := stride_spec (fun ofs => left (hint + ofs)) (n - hint) (n - hint)
      (by omega) Nat.zero_lt_one (.inl rfl)
    generalize stride _ _ _ _ _ = s at h1 h2 h3 h4
    obtain ⟨lastofs, ofs⟩ := s
    dsimp only at h1 h2 h3 h4 ⊢
    obtain ⟨g1, g2, g3, g4⟩ := search_spec left n (hint + lastofs + 1) (hint + ofs)
      (by omega) (by omega)
    refine ⟨by omega, .inr ?_, ?_⟩
    · rcases g3 with g3 | g3
      · rw [g3, Nat.add_sub_cancel]
        rcases h3 with rfl | h3
        · exact Bool.eq_false_iff.2 hleft
        · exact h3
      · exact g3
    · rcases g4 with g4 | g4
      · rcases h4 with h4 | h4
        · exact .inl (by omega)
        · rw [g4]
          exact .inr h4
      · exact .inr g4

/-! ## Nothing is lost -/

section Perm
variable {lt : α → α → Bool}

theorem perm_take_insert (run : List α) (x : α) (k : ℕ) : (run.take k ++ x :: run.drop k).Perm (x :: run) := by
  have hperm : (run.take k ++ x :: run.drop k).Perm (x :: (run.take k ++ run.drop k)) := List.perm_middle
  rwa [List.take_append_drop] at hperm

theorem binarysort_perm (run rest : List α) : (binarysort lt run rest).Perm (run ++ rest) := by
  unfold binarysort
  induction rest generalizing run with
  | nil => rw [List.append_nil]; rfl
  | cons x rest ih =>
    rw [List.foldl_cons]
    refine (ih _).trans (((perm_take_insert run x _).append_right rest).trans ?_)
    exact List.perm_middle.symm

/-- A next run is a part of the rest, from its start. -/
theorem nextRun_perm (least : ℕ) (rest : List α) :
    (nextRun lt least rest).Perm (rest.take (nextRun lt least rest).length) := by
  have hof : ∀ {run : List α} {m : ℕ}, run.Perm (rest.take m) → run.Perm (rest.take run.length) := by
    intro run m h
    have hlen := h.length_eq
    rw [List.length_take] at hlen
    rwa [hlen, ← List.take_eq_take_min]
  unfold nextRun
  generalize countRun lt rest = c
  obtain ⟨n, descending⟩ := c
  dsimp only
  have hrun : (if descending = true then (rest.take n).reverse else rest.take n).Perm (rest.take n) := by
    split
    · exact List.reverse_perm _
    · rfl
  generalize (if descending = true then (rest.take n).reverse else rest.take n) = run at hrun ⊢
  by_cases hshort : n < least
  · rw [if_pos hshort]
    refine hof (m := least) ((binarysort_perm run _).trans ((hrun.append_right _).trans ?_))
    rw [← List.take_add, Nat.add_sub_cancel' hshort.le]
  · rw [if_neg hshort]
    exact hof hrun

/-- A turn takes what it merges from the runs. -/
def Keeps (turn : List α → List α → Turn α) : Prop :=
  ∀ a b, ((turn a b).out ++ ((turn a b).b ++ (turn a b).a)).Perm (b ++ a)

theorem keeps_turnLo : Keeps (turnLo lt) := by
  classical
  intro a b
  cases b with
  | nil => rfl
  | cons y b =>
    unfold turnLo
    dsimp only
    have hdrop := List.take_append_drop (gallopRight lt y a 0) a
    split
    · next x x' rest hrest =>
      rw [hrest] at hdrop
      split
      · conv_rhs => rw [← hdrop]
        rw [List.perm_iff_count]
        intro z
        simp only [List.count_append, List.count_cons, List.count_nil]
        omega
      · conv_rhs => rw [← hdrop, ← List.take_append_drop (gallopLeft lt x b 0) b]
        rw [List.perm_iff_count]
        intro z
        simp only [List.count_append, List.count_cons, List.count_nil]
        omega
    · conv_rhs => rw [← hdrop]
      exact List.perm_append_comm_assoc _ _ _

theorem keeps_turnHi : Keeps (turnHi lt) := by
  classical
  intro a b
  cases a with
  | nil => simp [turnHi]
  | cons x a =>
    unfold turnHi
    dsimp only
    have hdrop := List.take_append_drop (b.length - gallopRight lt x b.reverse (b.length - 1)) b
    split
    · rw [List.nil_append]
    · next y rest hrest =>
      rw [hrest] at hdrop
      generalize (if a.length ≤ 1 then 0 else a.length - gallopLeft lt y a.reverse (a.length - 1)) = l
      split
      · conv_rhs => rw [← hdrop, ← List.take_append_drop l a]
        rw [List.perm_iff_count]
        intro z
        simp only [List.count_append, List.count_cons]
        omega
      · conv_rhs => rw [← hdrop, ← List.take_append_drop l a]
        rw [List.perm_iff_count]
        intro z
        simp only [List.count_append, List.count_cons, List.count_nil]
        omega

variable {wins : α → α → Bool} {turn : List α → List α → Turn α}

theorem merge_perm (hturn : Keeps turn) (fuel mg : ℕ) (mode : Mode) (a b : List α) :
    (merge wins turn fuel mg mode a b).2.Perm (b ++ a) := by
  induction fuel generalizing mg mode a b with
  | zero => unfold merge; rfl
  | succ fuel ih =>
    cases mode with
    | counting acount bcount =>
      cases a with
      | nil => unfold merge; rfl
      | cons x a =>
        cases b with
        | nil => unfold merge; rfl
        | cons y b =>
          unfold merge
          split
          · split
            · next hb => rw [hb]; rfl
            · exact (ih _ _ _ _).cons y
          · split
            · exact List.perm_middle.symm
            · exact ((ih _ _ _ _).cons x).trans List.perm_middle.symm
    | galloping =>
      unfold merge
      dsimp only
      split
      · exact hturn a b
      · exact ((ih _ _ _ _).append_left _).trans (hturn a b)

theorem startMerge_perm (hturn : Keeps turn) (mg : ℕ) (a b : List α) :
    (startMerge wins turn mg a b).2.Perm (b ++ a) := by
  cases b with
  | nil => rfl
  | cons y b =>
    simp only [startMerge]
    split
    · rfl
    · exact (merge_perm hturn _ _ _ a b).cons y

theorem mergeLo_perm (mg : ℕ) (a b : List α) : (mergeLo lt mg a b).2.Perm (a ++ b) :=
  (startMerge_perm keeps_turnLo mg a b).trans List.perm_append_comm

theorem mergeHi_perm (mg : ℕ) (a b : List α) : (mergeHi lt mg a b).2.Perm (a ++ b) := by
  unfold mergeHi
  refine (List.reverse_perm _).trans ((startMerge_perm keeps_turnHi mg b.reverse a.reverse).trans ?_)
  exact (List.reverse_perm a).append (List.reverse_perm b)

theorem mergeAt_perm (mg : ℕ) (a b : List α) : (mergeAt lt mg a b).2.Perm (a ++ b) := by
  unfold mergeAt
  cases hy : b.head? with
  | none =>
    obtain rfl := List.head?_eq_none_iff.1 hy
    rw [List.append_nil]
  | some y =>
    dsimp only
    cases hx : (a.drop (gallopRight lt y a 0)).getLast? with
    | none => rfl
    | some x =>
      dsimp only
      have hmerged : ∀ nb, (if nb = 0 then (mg, a.drop (gallopRight lt y a 0))
          else if (a.drop (gallopRight lt y a 0)).length ≤ nb
            then mergeLo lt mg (a.drop (gallopRight lt y a 0)) (b.take nb)
          else mergeHi lt mg (a.drop (gallopRight lt y a 0)) (b.take nb)).2.Perm
            (a.drop (gallopRight lt y a 0) ++ b.take nb) := by
        intro nb
        split
        · next hnb => rw [hnb, List.take_zero, List.append_nil]
        · split
          · exact mergeLo_perm _ _ _
          · exact mergeHi_perm _ _ _
      refine (((hmerged _).append_left _).append_right _).trans ?_
      rw [← List.append_assoc, List.take_append_drop, List.append_assoc, List.take_append_drop]

theorem contents_cons (top : Pending α) (pending : List (Pending α)) :
    contents (top :: pending) = contents pending ++ top.run := by
  unfold contents
  rw [List.reverse_cons, List.map_append, List.flatten_append]
  simp

theorem contents_merged {second top merged : Pending α} {rest : List (Pending α)}
    (h : merged.run.Perm (second.run ++ top.run)) :
    (contents (merged :: rest)).Perm (contents (top :: second :: rest)) := by
  rw [contents_cons, contents_cons, contents_cons, List.append_assoc]
  exact h.append_left _

theorem collapse_perm (power mg : ℕ) (top : Pending α) (pending : List (Pending α)) :
    (contents (collapse lt power mg top pending).2).Perm (contents (top :: pending)) := by
  induction pending generalizing mg top with
  | nil => rfl
  | cons second rest ih =>
    unfold collapse
    split
    · exact (ih _ _).trans (contents_merged (mergeAt_perm mg second.run top.run))
    · rw [contents_cons, contents_cons top, contents_cons second]

theorem foundNewRun_perm (n mg n2 : ℕ) (pending : List (Pending α)) :
    (contents (foundNewRun lt n mg n2 pending).2).Perm (contents pending) := by
  cases pending with
  | nil => rfl
  | cons top rest => exact collapse_perm _ _ _ _

theorem forceCollapse_perm (fuel mg : ℕ) (pending : List (Pending α)) :
    (forceCollapse lt fuel mg pending).Perm (contents pending) := by
  induction fuel generalizing mg pending with
  | zero => unfold forceCollapse; rfl
  | succ fuel ih =>
    match pending with
    | [] => unfold forceCollapse; rfl
    | [_] => unfold forceCollapse; rfl
    | [top, second] =>
      unfold forceCollapse
      refine (mergeAt_perm mg second.run top.run).trans ?_
      simp [contents]
    | top :: second :: third :: rest =>
      unfold forceCollapse
      split
      · refine (ih _ _).trans ?_
        rw [contents_cons, contents_cons top]
        exact (contents_merged (mergeAt_perm mg third.run second.run)).append_right _
      · exact (ih _ _).trans (contents_merged (mergeAt_perm mg second.run top.run))

theorem cut_perm (n least fuel mg : ℕ) (pending : List (Pending α)) (rest : List α) :
    (cut lt n least fuel mg pending rest).Perm (contents pending ++ rest) := by
  induction fuel generalizing mg pending rest with
  | zero =>
    unfold cut
    exact (forceCollapse_perm _ _ _).append_right _
  | succ fuel ih =>
    cases rest with
    | nil =>
      unfold cut
      exact (forceCollapse_perm _ _ _).append_right _
    | cons x rest =>
      unfold cut
      refine (ih _ _ _).trans ?_
      rw [contents_cons, List.append_assoc]
      refine ((foundNewRun_perm _ _ _ _).append_right _).trans (List.Perm.append_left _ ?_)
      refine ((nextRun_perm least (x :: rest)).append_right _).trans ?_
      rw [List.take_append_drop]

theorem sorted_perm (xs : List α) : (sorted lt xs).Perm xs := cut_perm _ _ _ _ [] xs

end Perm

end Mdrj.Core.ListSort
