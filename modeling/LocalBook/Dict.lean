import Mathlib

/-! Dictionaries that keep the order in which their keys were first inserted, as Python's
do: setting a key that is there keeps its place. -/
namespace LocalBook

abbrev Dict (κ α : Type) := List (κ × α)

namespace Dict

variable {κ α : Type} [DecidableEq κ]

/-- `d.get(key)`. -/
def find (d : Dict κ α) (key : κ) : Option α := List.lookup key d

/-- `d[key] = value`. -/
def set (d : Dict κ α) (key : κ) (value : α) : Dict κ α :=
  match d with
  | [] => [(key,value)]
  | entry :: rest =>
    if entry.1 = key then (key,value) :: rest else entry :: set rest key value

/-- `d.pop(key, None)`. -/
def pop (d : Dict κ α) (key : κ) : Dict κ α := d.filter fun entry => entry.1 ≠ key

theorem mem_set {d : Dict κ α} {key : κ} {value : α} {entry : κ × α}
    (found : entry ∈ d.set key value) : entry = (key,value) ∨ entry ∈ d := by
  induction d with
  | nil => exact .inl (List.mem_singleton.mp found)
  | cons head rest ih =>
    rw [set] at found
    split at found
    · rcases List.mem_cons.mp found with same | later
      · exact .inl same
      · exact .inr (List.mem_cons_of_mem _ later)
    · rcases List.mem_cons.mp found with rfl | later
      · exact .inr (List.mem_cons_self ..)
      · exact (ih later).imp_right (List.mem_cons_of_mem _)

theorem set_mem (d : Dict κ α) (key : κ) (value : α) : (key,value) ∈ d.set key value := by
  induction d with
  | nil => exact List.mem_singleton.mpr rfl
  | cons head rest ih =>
    rw [set]
    split
    · exact List.mem_cons_self ..
    · exact List.mem_cons_of_mem _ ih

theorem mem_set_of_ne {d : Dict κ α} {key : κ} {value : α} {entry : κ × α} (found : entry ∈ d)
    (other : entry.1 ≠ key) : entry ∈ d.set key value := by
  induction d with
  | nil => cases found
  | cons head rest ih =>
    rw [set]
    rcases List.mem_cons.mp found with rfl | later
    · rw [if_neg other]
      exact List.mem_cons_self ..
    · split
      · exact List.mem_cons_of_mem _ later
      · exact List.mem_cons_of_mem _ (ih later)

@[simp] theorem find_nil (key : κ) : find ([] : Dict κ α) key = none := rfl

theorem find_cons (entry : κ × α) (rest : Dict κ α) (key : κ) :
    find (entry :: rest) key = if key = entry.1 then some entry.2 else rest.find key := by
  rw [find,find,List.lookup_cons]
  by_cases same : key = entry.1
  · simp [same]
  · rw [if_neg same,beq_false_of_ne same]

@[simp] theorem find_set (d : Dict κ α) (key : κ) (value : α) (other : κ) :
    (d.set key value).find other = if other = key then some value else d.find other := by
  induction d with
  | nil => exact find_cons (key,value) [] other
  | cons head rest ih =>
    rw [set]
    split
    · rename_i here
      rw [find_cons,find_cons,here]
      split <;> rfl
    · rename_i here
      rw [find_cons,ih,find_cons]
      grind

@[simp] theorem find_pop (d : Dict κ α) (key other : κ) :
    (d.pop key).find other = if other = key then none else d.find other := by
  induction d with
  | nil => simp [pop]
  | cons head rest ih =>
    rw [pop] at ih ⊢
    by_cases here : head.1 = key
    · rw [List.filter_cons_of_neg (by simpa using here),ih,find_cons,here]
      split <;> rfl
    · rw [List.filter_cons_of_pos (by simpa using here),find_cons,ih,find_cons]
      grind

/-- `UPDATE … SET key = new WHERE key = old`. -/
def rekey (d : Dict κ α) (old new : κ) : Dict κ α :=
  d.map fun entry => if entry.1 = old then (new,entry.2) else entry

theorem find_rekey (d : Dict κ α) {old new : κ} (other : κ) (free : d.find new = none) :
    (d.rekey old new).find other =
      if other = new then d.find old else if other = old then none else d.find other := by
  induction d with
  | nil => simp [rekey]
  | cons head rest ih =>
    rw [find_cons] at free
    have tail := ih (by grind)
    rw [rekey] at tail
    rw [rekey,List.map_cons,find_cons,tail,find_cons,find_cons]
    by_cases here : head.1 = old
    · simp only [here,if_true]
      grind
    · simp only [here,if_false]
      grind

def modify (d : Dict κ α) (key : κ) (change : α → α) : Dict κ α :=
  d.map fun entry => if entry.1 = key then (key,change entry.2) else entry

@[simp] theorem find_modify (d : Dict κ α) (key : κ) (change : α → α) (other : κ) :
    (d.modify key change).find other =
      if other = key then (d.find key).map change else d.find other := by
  induction d with
  | nil => simp [modify]
  | cons head rest ih =>
    rw [modify] at ih
    rw [modify,List.map_cons,find_cons,ih,find_cons,find_cons]
    by_cases here : head.1 = key
    · simp only [here,if_true]
      grind
    · simp only [here,if_false]
      grind

def mapValues (d : Dict κ α) (change : α → α) : Dict κ α :=
  d.map fun entry => (entry.1,change entry.2)

@[simp] theorem find_mapValues (d : Dict κ α) (change : α → α) (key : κ) :
    (d.mapValues change).find key = (d.find key).map change := by
  induction d with
  | nil => rfl
  | cons head rest ih =>
    rw [mapValues] at ih
    rw [mapValues,List.map_cons,find_cons,ih,find_cons]
    split <;> rfl

theorem find_absent {d : Dict κ α} {key : κ} (absent : key ∉ d.map Prod.fst) :
    d.find key = none := by
  induction d with
  | nil => rfl
  | cons head rest ih =>
    obtain ⟨apart,later⟩ := not_or.mp (mt List.mem_cons.mpr absent)
    rw [find_cons,if_neg apart,ih later]

theorem find_of_mem {d : Dict κ α} (distinct : (d.map Prod.fst).Nodup) {entry : κ × α}
    (member : entry ∈ d) : d.find entry.1 = some entry.2 := by
  induction d with
  | nil => cases member
  | cons head rest ih =>
    obtain ⟨fresh,others⟩ := List.nodup_cons.mp distinct
    rw [find_cons]
    rcases List.mem_cons.mp member with rfl | later
    · rw [if_pos rfl]
    · have apart : entry.1 ≠ head.1 := fun same => fresh (same ▸ List.mem_map_of_mem later)
      rw [if_neg apart,ih others later]

theorem mem_of_find {d : Dict κ α} {key : κ} {value : α} (found : d.find key = some value) :
    (key,value) ∈ d := by
  induction d with
  | nil => cases found
  | cons head rest ih =>
    rw [find_cons] at found
    split at found
    · rename_i here
      obtain rfl := Option.some.inj found
      exact here ▸ List.mem_cons_self ..
    · exact List.mem_cons_of_mem _ (ih found)

/-- Setting a key adds it when it is new. -/
theorem nodup_names_set {d : Dict κ α} (distinct : (d.map Prod.fst).Nodup) (key : κ)
    (value : α) : ((d.set key value).map Prod.fst).Nodup := by
  induction d with
  | nil => simp [set]
  | cons head rest ih =>
    obtain ⟨fresh,others⟩ := List.nodup_cons.mp distinct
    rw [set]
    split
    · rename_i same
      exact List.nodup_cons.mpr ⟨same ▸ fresh,others⟩
    · rename_i apart
      refine List.nodup_cons.mpr ⟨fun found => ?_,ih others⟩
      obtain ⟨entry,member,same⟩ := List.mem_map.mp found
      rcases mem_set member with rfl | before
      · exact apart same.symm
      · exact fresh (same ▸ List.mem_map_of_mem before)

/-- A key is renamed to one that is not there. -/
theorem nodup_names_rekey {d : Dict κ α} (distinct : (d.map Prod.fst).Nodup) {old new : κ}
    (free : d.find new = none) : ((d.rekey old new).map Prod.fst).Nodup := by
  have names : (d.rekey old new).map Prod.fst =
      (d.map Prod.fst).map fun key => if key = old then new else key := by
    rw [rekey,List.map_map,List.map_map]
    refine List.map_congr_left fun entry _ => ?_
    simp only [Function.comp_apply]
    split <;> rfl
  have absent : new ∉ d.map Prod.fst := by
    intro found
    obtain ⟨entry,member,same⟩ := List.mem_map.mp found
    have unequal := List.lookup_eq_none_iff.mp free entry member
    simp [same] at unequal
  rw [names]
  refine List.Nodup.map_on (fun a first b second same => ?_) distinct
  have left : a ≠ new := fun equal => absent (equal ▸ first)
  have right : b ≠ new := fun equal => absent (equal ▸ second)
  grind

end Dict

end LocalBook
