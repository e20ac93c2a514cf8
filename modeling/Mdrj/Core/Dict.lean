import Mathlib.Data.Finset.Card

/-!
# Insertion-ordered dictionaries

A Python `dict` as an association list in insertion order: `set` replaces
the value of a present key in place and appends an absent key, `get` finds
the first entry of a key. The facts are the ones a client needs to stop
looking at the list: reading back a write, the keys after a write, and, for
keys without repetition (which every write keeps), membership as lookup,
comprehensions over the entries as lookup, and counts of values as counts of
keys. A list that a loop fills without repetition is the same thing without
values; what such a loop collects is said once, in `Gathers`.
-/
namespace Mdrj.Core

abbrev Dict (κ ν : Type) := List (κ × ν)

namespace Dict
variable {κ ν : Type}

def keys (d : Dict κ ν) : List κ := d.map Prod.fst

def values (d : Dict κ ν) : List ν := d.map Prod.snd

@[simp] theorem keys_nil : keys ([] : Dict κ ν) = [] := rfl

variable [DecidableEq κ]

def get : Dict κ ν → κ → Option ν
  | [], _ => none
  | (k', v) :: d, k => if k' = k then some v else get d k

def set : Dict κ ν → κ → ν → Dict κ ν
  | [], k, v => [(k, v)]
  | (k', v') :: d, k, v => if k' = k then (k', v) :: d else (k', v') :: set d k v

@[simp] theorem get_nil (k : κ) : get ([] : Dict κ ν) k = none := rfl

theorem get_cons (k' : κ) (v : ν) (d : Dict κ ν) (k : κ) :
    get ((k', v) :: d) k = if k' = k then some v else get d k := rfl

theorem get_set_self (d : Dict κ ν) (k : κ) (v : ν) : get (set d k v) k = some v := by
  induction d with
  | nil => simp [set, get]
  | cons p d ih =>
    by_cases h : p.1 = k
    · simp [set, get, h]
    · simp [set, get, h, ih]

theorem get_set_ne (d : Dict κ ν) {k k' : κ} (v : ν) (h : k ≠ k') :
    get (set d k v) k' = get d k' := by
  induction d with
  | nil => simp [set, get, h]
  | cons p d ih =>
    by_cases h1 : p.1 = k
    · simp [set, get, h1, h]
    · simp only [set, h1, if_false, get_cons, ih]; rfl

theorem get_set (d : Dict κ ν) (k k' : κ) (v : ν) :
    get (set d k v) k' = if k = k' then some v else get d k' := by
  split
  · rename_i h; subst h; exact get_set_self d k v
  · rename_i h; exact get_set_ne d v h

/-- Writing back what is there changes nothing. -/
theorem set_get_self {d : Dict κ ν} {k : κ} {v : ν} (h : get d k = some v) : set d k v = d := by
  induction d with
  | nil => cases h
  | cons p d ih =>
    obtain ⟨k', v'⟩ := p
    rw [get_cons] at h
    unfold set
    split at h
    · rename_i hk
      rw [if_pos hk, Option.some.inj h]
    · rename_i hk
      rw [if_neg hk, ih h]

theorem mem_keys {d : Dict κ ν} {k : κ} : k ∈ keys d ↔ ∃ v, get d k = some v := by
  induction d with
  | nil => simp
  | cons p d ih =>
    by_cases h : p.1 = k
    · simp [keys, get, h]
    · have hk : k ≠ p.1 := fun e => h e.symm
      simp only [keys, List.map_cons, List.mem_cons, hk, false_or] at ih ⊢
      rw [ih]; simp [get, h]

theorem get_eq_none {d : Dict κ ν} {k : κ} : get d k = none ↔ k ∉ keys d := by
  rw [mem_keys]; cases get d k <;> simp

theorem mem_of_get {d : Dict κ ν} {k : κ} {v : ν} (h : get d k = some v) : (k, v) ∈ d := by
  induction d with
  | nil => cases h
  | cons p d ih =>
    rw [get_cons] at h
    split at h
    · rename_i hk; cases h; subst hk; exact List.mem_cons_self
    · exact List.mem_cons_of_mem _ (ih h)

theorem get_of_mem {d : Dict κ ν} (hd : (keys d).Nodup) {k : κ} {v : ν} (h : (k, v) ∈ d) :
    get d k = some v := by
  induction d with
  | nil => cases h
  | cons p d ih =>
    simp only [keys, List.map_cons, List.nodup_cons] at hd
    rcases List.mem_cons.1 h with rfl | h
    · simp [get]
    · have hne : p.1 ≠ k := fun e => hd.1 (e ▸ List.mem_map.2 ⟨(k, v), h, rfl⟩)
      rw [get_cons, if_neg hne]; exact ih hd.2 h

theorem mem_iff_get {d : Dict κ ν} (hd : (keys d).Nodup) {k : κ} {v : ν} :
    (k, v) ∈ d ↔ get d k = some v := ⟨get_of_mem hd, mem_of_get⟩

theorem mem_values {d : Dict κ ν} (hd : (keys d).Nodup) {v : ν} :
    v ∈ values d ↔ ∃ k, get d k = some v := by
  simp only [values, List.mem_map, Prod.exists, exists_eq_right]
  exact exists_congr fun k => mem_iff_get hd

theorem keys_set (d : Dict κ ν) (k : κ) (v : ν) :
    keys (set d k v) = if k ∈ keys d then keys d else keys d ++ [k] := by
  induction d with
  | nil => simp [set, keys]
  | cons p d ih =>
    by_cases h : p.1 = k
    · simp [set, keys, h]
    · have hk : k ≠ p.1 := fun e => h e.symm
      simp only [keys, set, h, if_false, List.map_cons, List.mem_cons, hk, false_or] at ih ⊢
      rw [ih]
      by_cases hm : k ∈ d.map Prod.fst <;> simp [hm]

/-- A new key comes last. -/
theorem set_of_notMem {d : Dict κ ν} {k : κ} (h : k ∉ keys d) (v : ν) : set d k v = d ++ [(k, v)] := by
  induction d with
  | nil => rfl
  | cons p d ih =>
    have hk : p.1 ≠ k := fun e => h (List.mem_cons.2 (.inl e.symm))
    have hd : k ∉ keys d := fun hmem => h (List.mem_cons.2 (.inr hmem))
    simp only [set, if_neg hk, ih hd, List.cons_append]

/-- An entry after a write is an old one or the new one. -/
theorem mem_of_mem_set {d : Dict κ ν} {k : κ} {v : ν} {p : κ × ν} (h : p ∈ set d k v) : p ∈ d ∨ p = (k, v) := by
  induction d with
  | nil => exact .inr (List.mem_singleton.1 h)
  | cons q d ih =>
    unfold set at h
    split at h
    · rename_i hk
      rcases List.mem_cons.1 h with rfl | h
      · exact .inr (by rw [hk])
      · exact .inl (List.mem_cons_of_mem q h)
    · rcases List.mem_cons.1 h with rfl | h
      · exact .inl List.mem_cons_self
      · exact (ih h).imp (List.mem_cons_of_mem q) id

theorem mem_keys_set {d : Dict κ ν} {k k' : κ} {v : ν} :
    k' ∈ keys (set d k v) ↔ k' = k ∨ k' ∈ keys d := by
  rw [keys_set]
  split
  · rename_i h
    exact ⟨Or.inr, fun hk => hk.elim (fun e => e ▸ h) id⟩
  · simp [or_comm]

theorem mem_keys_foldl_set {α : Type} (f : α → κ) (g : α → ν) {l : List α} {d : Dict κ ν} {k : κ}
    (h : k ∈ keys d) : k ∈ keys (l.foldl (fun d a => set d (f a) (g a)) d) := by
  induction l generalizing d with
  | nil => exact h
  | cons a l ih => exact ih (mem_keys_set.2 (.inr h))

theorem mem_keys_foldl_set_of_mem {α : Type} (f : α → κ) (g : α → ν) {l : List α} {d : Dict κ ν} {a : α}
    (h : a ∈ l) : f a ∈ keys (l.foldl (fun d a => set d (f a) (g a)) d) := by
  induction l generalizing d with
  | nil => cases h
  | cons b l ih =>
    rcases List.mem_cons.1 h with rfl | h
    · exact mem_keys_foldl_set (l := l) f g (mem_keys_set.2 (.inl rfl))
    · exact ih h

/-- A write to the values under a function. -/
theorem map_set {ν' : Type} (f : ν → ν') (d : Dict κ ν) (k : κ) (v : ν) :
    (set d k v).map (fun p => (p.1, f p.2)) = set (d.map fun p => (p.1, f p.2)) k (f v) := by
  induction d with
  | nil => rfl
  | cons p d ih =>
    obtain ⟨k', v'⟩ := p
    rw [List.map_cons]
    unfold set
    dsimp only
    split
    · rfl
    · rw [List.map_cons, ih]

theorem get_map_values {ν' : Type} {f : ν → ν'} {d : Dict κ ν} {k : κ} {v : ν} (h : get d k = some v) :
    get (d.map fun p => (p.1, f p.2)) k = some (f v) := by
  induction d with
  | nil => cases h
  | cons p d ih =>
    obtain ⟨k', v'⟩ := p
    rw [get_cons] at h
    rw [List.map_cons, get_cons]
    split
    · next hk =>
      rw [if_pos hk] at h
      rw [Option.some.inj h]
    · next hk =>
      rw [if_neg hk] at h
      exact ih h

theorem get_foldl_set_of_notMem {α : Type} (f : α → κ) (g : α → ν) {l : List α} {d : Dict κ ν} {k : κ}
    (h : k ∉ l.map f) : get (l.foldl (fun d a => set d (f a) (g a)) d) k = get d k := by
  induction l generalizing d with
  | nil => rfl
  | cons a l ih =>
    rw [List.map_cons, List.mem_cons, not_or] at h
    rw [List.foldl_cons, ih h.2, get_set_ne _ _ fun e => h.1 e.symm]

theorem get_foldl_set_of_mem {α : Type} (f : α → κ) (g : α → ν) {l : List α} {d : Dict κ ν}
    (hn : (l.map f).Nodup) {a : α} (ha : a ∈ l) :
    get (l.foldl (fun d a => set d (f a) (g a)) d) (f a) = some (g a) := by
  induction l generalizing d with
  | nil => cases ha
  | cons b l ih =>
    rw [List.map_cons, List.nodup_cons] at hn
    rw [List.foldl_cons]
    rcases List.mem_cons.1 ha with rfl | ha
    · rw [get_foldl_set_of_notMem f g hn.1, get_set_self]
    · exact ih hn.2 ha

theorem nodup_set {d : Dict κ ν} (hd : (keys d).Nodup) (k : κ) (v : ν) :
    (keys (set d k v)).Nodup := by
  rw [keys_set]
  split
  · exact hd
  · rename_i h
    rw [← List.concat_eq_append]
    exact (List.nodup_concat _ _).2 ⟨h, hd⟩

/-- Dictionaries that look up alike have the same entries. -/
theorem perm_of_get_eq {d d' : Dict κ ν} (hd : (keys d).Nodup) (hd' : (keys d').Nodup)
    (h : ∀ k, get d k = get d' k) : d.Perm d' := by
  refine (List.perm_ext_iff_of_nodup (List.Nodup.of_map _ hd) (List.Nodup.of_map _ hd')).2 ?_
  rintro ⟨k, v⟩
  rw [mem_iff_get hd, mem_iff_get hd', h k]

/-! ## Comprehensions -/

variable {β : Type}

omit [DecidableEq κ] in
theorem keys_filterMap_sublist (d : Dict κ ν) (g : κ × ν → Option β) :
    (keys (d.filterMap fun p => (g p).map fun b => (p.1, b))).Sublist (keys d) := by
  induction d with
  | nil => exact List.Sublist.slnil
  | cons p d ih =>
    rw [List.filterMap_cons]
    cases g p with
    | none => exact ih.cons _
    | some b => exact ih.cons_cons _

/-- `{k: g(k, v) for k, v in d.items() if cond}` looks up through `d`. -/
theorem get_filterMap {d : Dict κ ν} (hd : (keys d).Nodup) (g : κ × ν → Option β) (k : κ) :
    get (d.filterMap fun p => (g p).map fun b => (p.1, b)) k =
      (get d k).bind fun v => g (k, v) := by
  induction d with
  | nil => rfl
  | cons p d ih =>
    obtain ⟨k', v⟩ := p
    simp only [keys, List.map_cons, List.nodup_cons] at hd
    rw [List.filterMap_cons, get_cons]
    by_cases hk : k' = k
    · subst hk
      have hnone : get (d.filterMap fun p => (g p).map fun b => (p.1, b)) k' = none := by
        rw [get_eq_none]
        exact fun hm => hd.1 ((keys_filterMap_sublist d g).subset hm)
      rw [if_pos rfl, Option.bind_some]
      cases hg : g (k', v) with
      | none => exact hnone
      | some b => simp [get_cons]
    · rw [if_neg hk, ← ih hd.2]
      cases g (k', v) with
      | none => rfl
      | some b => simp [get_cons, hk]

omit [DecidableEq κ] in
theorem nodup_filter {d : Dict κ ν} (hd : (keys d).Nodup) (p : κ × ν → Bool) :
    (keys (d.filter p)).Nodup :=
  hd.sublist (List.filter_sublist.map _)

/-- The entries left after the others were popped. -/
theorem get_filter {d : Dict κ ν} (hd : (keys d).Nodup) (p : κ × ν → Bool) (k : κ) (v : ν) :
    get (d.filter p) k = some v ↔ get d k = some v ∧ p (k, v) = true := by
  rw [← mem_iff_get (nodup_filter hd p), List.mem_filter, mem_iff_get hd]

/-- `{k: f(k) for k in ks}`. -/
theorem get_map_key (ks : List κ) (f : κ → ν) (k : κ) :
    get (ks.map fun k => (k, f k)) k = if k ∈ ks then some (f k) else none := by
  induction ks with
  | nil => rfl
  | cons a ks ih =>
    rw [List.map_cons, get_cons, ih]
    by_cases h : a = k
    · subst h; simp
    · have h' : k ≠ a := fun e => h e.symm
      simp [h, h']

/-- The values equal to `b` that a comprehension collects are as many as
their keys. -/
theorem count_filterMap [BEq β] [LawfulBEq β] {d : Dict κ ν} (hd : (keys d).Nodup)
    (g : κ × ν → Option β) (b : β) {s : Finset κ}
    (hs : ∀ k, k ∈ s ↔ ∃ v, get d k = some v ∧ g (k, v) = some b) :
    (d.filterMap g).count b = s.card := by
  have hlen : (d.filterMap g).count b = (keys (d.filter fun p => g p == some b)).length := by
    rw [keys, List.length_map, List.count_filterMap, List.countP_eq_length_filter]
  have hnd : (keys (d.filter fun p => g p == some b)).Nodup :=
    hd.sublist (List.filter_sublist.map _)
  have hset : (keys (d.filter fun p => g p == some b)).toFinset = s := by
    ext k
    rw [List.mem_toFinset, hs]
    simp only [keys, List.mem_map, List.mem_filter, beq_iff_eq, Prod.exists, exists_and_right,
      exists_eq_right]
    exact exists_congr fun v => and_congr_left fun _ => mem_iff_get hd
  rw [hlen, ← hset, List.toFinset_card_of_nodup hnd]

end Dict

/-! ## Collecting without repetition -/

section Gather
variable {α β κ : Type} {key : β → κ} {new : α → β} {skip : α → Prop} {f : List β → α → List β}

/-- The body `f` of a loop that appends what `new` makes of an item, unless
the item is to be skipped or its key is there already. -/
structure Gathers (key : β → κ) (new : α → β) (skip : α → Prop) (f : List β → α → List β) : Prop where
  stay : ∀ {l a}, skip a ∨ key (new a) ∈ l.map key → f l a = l
  append : ∀ {l a}, ¬ (skip a ∨ key (new a) ∈ l.map key) → f l a = l ++ [new a]

namespace Gathers

theorem mem_step (h : Gathers key new skip f) {l : List β} {a : α} {k : κ} :
    k ∈ (f l a).map key ↔ k ∈ l.map key ∨ ¬ skip a ∧ key (new a) = k := by
  by_cases hstay : skip a ∨ key (new a) ∈ l.map key
  · rw [h.stay hstay]
    refine ⟨.inl, fun hk => hk.elim id ?_⟩
    rintro ⟨hkeep, rfl⟩
    exact hstay.resolve_left hkeep
  · rw [h.append hstay, List.map_append, List.mem_append, List.map_singleton, List.mem_singleton]
    have hkeep : ¬ skip a := fun hskip => hstay (.inl hskip)
    rw [and_iff_right hkeep, eq_comm]

theorem nodup_step (h : Gathers key new skip f) {l : List β} (hl : (l.map key).Nodup) (a : α) :
    ((f l a).map key).Nodup := by
  by_cases hstay : skip a ∨ key (new a) ∈ l.map key
  · rw [h.stay hstay]
    exact hl
  · rw [h.append hstay, List.map_append, List.map_singleton, ← List.concat_eq_append]
    exact (List.nodup_concat _ _).2 ⟨fun hmem => hstay (.inr hmem), hl⟩

/-- The keys after the loop: those from before and those of the items kept. -/
theorem mem_foldl (h : Gathers key new skip f) (as : List α) {l : List β} {k : κ} :
    k ∈ (as.foldl f l).map key ↔ k ∈ l.map key ∨ ∃ a ∈ as, ¬ skip a ∧ key (new a) = k := by
  induction as generalizing l with
  | nil => simp
  | cons a as ih => rw [List.foldl_cons, ih, h.mem_step, List.exists_mem_cons_iff, or_assoc]

theorem nodup_foldl (h : Gathers key new skip f) (as : List α) {l : List β} (hl : (l.map key).Nodup) :
    ((as.foldl f l).map key).Nodup := by
  induction as generalizing l with
  | nil => exact hl
  | cons a as ih => exact ih (h.nodup_step hl a)

end Gathers
end Gather
end Mdrj.Core
