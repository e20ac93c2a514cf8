import Mdrj.Core.Dict

/-!
# Tables with a primary key

A table is a dictionary that carries the uniqueness of its keys, so that its
rows and its lookups are the same thing (`mem_rows`) and no client has to
keep the fact along.
-/
namespace Mdrj.Core

structure Table (κ ν : Type) where
  rows : Dict κ ν
  unique : (Dict.keys rows).Nodup

namespace Table
variable {κ ν : Type}

def empty : Table κ ν := ⟨[], List.nodup_nil⟩

variable [DecidableEq κ]

def get (t : Table κ ν) (k : κ) : Option ν := Dict.get t.rows k

/-- `INSERT`, or `UPDATE` of the row that is there. -/
def put (t : Table κ ν) (k : κ) (v : ν) : Table κ ν :=
  ⟨Dict.set t.rows k v, Dict.nodup_set t.unique k v⟩

/-- `DELETE … WHERE key = k`. -/
def erase (t : Table κ ν) (k : κ) : Table κ ν :=
  ⟨t.rows.filter fun p => p.1 ≠ k, (List.filter_sublist.map Prod.fst).nodup t.unique⟩

/-- `UPDATE` of every row. -/
def update (t : Table κ ν) (f : ν → ν) : Table κ ν :=
  ⟨t.rows.map fun p => (p.1, f p.2), by simpa [Dict.keys, Function.comp_def] using t.unique⟩

@[simp] theorem get_empty (k : κ) : (empty : Table κ ν).get k = none := rfl

@[simp] theorem get_put_self (t : Table κ ν) (k : κ) (v : ν) : (t.put k v).get k = some v :=
  Dict.get_set_self t.rows k v

@[simp] theorem get_put_ne (t : Table κ ν) {k k' : κ} (v : ν) (h : k ≠ k') :
    (t.put k v).get k' = t.get k' := Dict.get_set_ne t.rows v h

/-- Rows and lookups are the same thing. -/
theorem mem_rows {t : Table κ ν} {k : κ} {v : ν} : (k, v) ∈ t.rows ↔ t.get k = some v :=
  Dict.mem_iff_get t.unique

/-- An update that changes no row changes nothing. -/
theorem update_eq_self {t : Table κ ν} {f : ν → ν} (h : ∀ k v, t.get k = some v → f v = v) : t.update f = t := by
  have hrows : t.rows.map (fun p => (p.1, f p.2)) = t.rows := by
    refine (List.map_congr_left fun p hp => ?_).trans (List.map_id _)
    rw [h p.1 p.2 (mem_rows.1 hp)]
    rfl
  cases t with
  | mk rows unique =>
    unfold update
    congr

theorem get_erase (t : Table κ ν) (k k' : κ) :
    (t.erase k).get k' = if k = k' then none else t.get k' := by
  have hrow : ∀ v, (t.erase k).get k' = some v ↔ k' ≠ k ∧ t.get k' = some v := by
    intro v
    rw [← mem_rows, ← mem_rows]
    simp [erase, and_comm]
  split
  · rename_i h
    cases hget : (t.erase k).get k' with
    | none => rfl
    | some v => exact absurd h.symm ((hrow v).1 hget).1
  · rename_i h
    cases hget : t.get k' with
    | none =>
      cases herase : (t.erase k).get k' with
      | none => rfl
      | some v => rw [((hrow v).1 herase).2] at hget; cases hget
    | some v => exact (hrow v).2 ⟨fun e => h e.symm, hget⟩

@[simp] theorem get_erase_self (t : Table κ ν) (k : κ) : (t.erase k).get k = none := by
  rw [get_erase, if_pos rfl]

@[simp] theorem get_erase_ne (t : Table κ ν) {k k' : κ} (h : k ≠ k') :
    (t.erase k).get k' = t.get k' := by
  rw [get_erase, if_neg h]

end Table
end Mdrj.Core
