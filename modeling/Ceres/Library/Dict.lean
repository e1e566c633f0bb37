/-
  File:      Ceres/Library/Dict.lean
  Subject:   DICTIONARIES THAT KEEP THE ORDER OF INSERTION.

  * `get`, `set`, `erase`, `keys` -- a key that is there keeps its place when its value is set;
  * `get_set`, `get_erase`, `get_filter` -- what is read back;
  * `get_eq_none_iff`, `mem_of_get`, `eq_of_mem` -- reading and the entries.
-/
import Mathlib.Tactic

namespace Ceres.Library

/-- Keys with their values, in the order the keys came in. -/
abbrev Dict (κ ν : Type) : Type := List (κ × ν)

namespace Dict

variable {κ ν : Type} [DecidableEq κ]

def get : Dict κ ν → κ → Option ν
  | [], _ => none
  | entry :: d, key => if entry.1 = key then some entry.2 else get d key

def set : Dict κ ν → κ → ν → Dict κ ν
  | [], key, value => [(key, value)]
  | entry :: d, key, value =>
    if entry.1 = key then (key, value) :: d else entry :: set d key value

def erase (d : Dict κ ν) (key : κ) : Dict κ ν := d.filter fun entry => decide (entry.1 ≠ key)

def keys (d : Dict κ ν) : List κ := d.map Prod.fst

def values (d : Dict κ ν) : List ν := d.map Prod.snd

@[simp] theorem get_nil (key : κ) : get ([] : Dict κ ν) key = none := rfl

theorem get_cons (entry : κ × ν) (d : Dict κ ν) (key : κ) :
    get (entry :: d) key = if entry.1 = key then some entry.2 else get d key := rfl

theorem get_set (d : Dict κ ν) (key : κ) (value : ν) (other : κ) :
    get (set d key value) other = if key = other then some value else get d other := by
  induction d with
  | nil => rfl
  | cons entry d ih =>
    by_cases hkey : entry.1 = key
    · rw [set, if_pos hkey, get_cons, get_cons, hkey]
      by_cases hother : key = other
      · rw [if_pos hother, if_pos hother]
      · rw [if_neg hother, if_neg hother, if_neg hother]
    · rw [set, if_neg hkey, get_cons, get_cons, ih]
      by_cases hother : entry.1 = other
      · rw [if_pos hother, if_pos hother, if_neg (fun h => hkey (hother.trans h.symm))]
      · rw [if_neg hother, if_neg hother]

theorem set_set (d : Dict κ ν) (key : κ) (first second : ν) :
    set (set d key first) key second = set d key second := by
  induction d with
  | nil => simp [set]
  | cons entry d ih =>
    by_cases hkey : entry.1 = key
    · simp [set, hkey]
    · simp [set, hkey, ih]

theorem get_erase (d : Dict κ ν) (key other : κ) :
    get (erase d key) other = if key = other then none else get d other := by
  induction d with
  | nil => simp [erase]
  | cons entry d ih =>
    unfold erase at *
    by_cases hkey : entry.1 = key
    · rw [List.filter_cons_of_neg (by simpa using hkey), ih, get_cons, hkey]
      by_cases hother : key = other
      · rw [if_pos hother, if_pos hother]
      · rw [if_neg hother, if_neg hother, if_neg hother]
    · rw [List.filter_cons_of_pos (by simpa using hkey), get_cons, get_cons, ih]
      by_cases hother : entry.1 = other
      · rw [if_pos hother, if_pos hother, if_neg (fun h => hkey (hother.trans h.symm))]
      · rw [if_neg hother, if_neg hother]

theorem get_filter (d : Dict κ ν) (p : κ → Bool) (key : κ) :
    get (d.filter fun entry => p entry.1) key = if p key then get d key else none := by
  induction d with
  | nil => simp
  | cons entry d ih =>
    by_cases hentry : p entry.1 = true
    · rw [List.filter_cons_of_pos (by simpa using hentry), get_cons, get_cons, ih]
      by_cases hkey : entry.1 = key
      · rw [if_pos hkey, if_pos hkey, if_pos (hkey ▸ hentry)]
      · rw [if_neg hkey, if_neg hkey]
    · rw [List.filter_cons_of_neg (by simpa using hentry), ih, get_cons]
      by_cases hkey : entry.1 = key
      · rw [if_neg (hkey ▸ hentry), if_neg (hkey ▸ hentry)]
      · rw [if_neg hkey]

variable {d : Dict κ ν} {key : κ} {value : ν}

theorem mem_of_get (h : get d key = some value) : (key, value) ∈ d := by
  induction d with
  | nil => simp at h
  | cons entry d ih =>
    rw [get_cons] at h
    by_cases hkey : entry.1 = key
    · rw [if_pos hkey, Option.some.injEq] at h
      rw [← hkey, ← h]
      exact List.mem_cons_self
    · rw [if_neg hkey] at h
      exact List.mem_cons_of_mem _ (ih h)

theorem get_eq_none_iff : get d key = none ↔ key ∉ keys d := by
  induction d with
  | nil => simp [keys]
  | cons entry d ih =>
    have hkeys : keys (entry :: d) = entry.1 :: keys d := rfl
    rw [get_cons, hkeys, List.mem_cons]
    by_cases hkey : entry.1 = key
    · simp [hkey]
    · rw [if_neg hkey, ih]
      simp [Ne.symm hkey]

omit [DecidableEq κ] in
theorem mem_keys_of_mem {entry : κ × ν} (h : entry ∈ d) : entry.1 ∈ keys d :=
  List.mem_map_of_mem h

omit [DecidableEq κ] in
theorem eq_of_mem (hd : (keys d).Nodup) {value other : ν} (h : (key, value) ∈ d)
    (hother : (key, other) ∈ d) : value = other :=
  congrArg Prod.snd (List.inj_on_of_nodup_map hd h hother rfl)

theorem set_of_absent (h : key ∉ keys d) (value : ν) : set d key value = d ++ [(key, value)] := by
  induction d with
  | nil => rfl
  | cons entry d ih =>
    have hne : entry.1 ≠ key := fun heq => h (heq ▸ List.mem_cons_self)
    rw [set, if_neg hne, ih fun hmem => h (List.mem_cons_of_mem _ hmem)]
    rfl

omit [DecidableEq κ] in
theorem nodup_keys_append (hd : (keys d).Nodup) (h : key ∉ keys d) : (keys (d ++ [(key, value)])).Nodup := by
  have hkeys : keys (d ++ [(key, value)]) = keys d ++ [key] := by simp [keys]
  rw [hkeys]
  refine List.Nodup.append hd (List.nodup_singleton _) fun other hold hnew => ?_
  rw [List.mem_singleton.mp hnew] at hold
  exact h hold

theorem nodup_keys_erase (hd : (keys d).Nodup) (key : κ) : (keys (erase d key)).Nodup :=
  (List.filter_sublist.map Prod.fst).nodup hd

theorem keys_set (h : get d key = some value) (after : ν) : keys (set d key after) = keys d := by
  induction d with
  | nil => cases h
  | cons entry d ih =>
    rw [get_cons] at h
    by_cases hkey : entry.1 = key
    · rw [set, if_pos hkey, ← hkey]
      rfl
    · rw [if_neg hkey] at h
      rw [set, if_neg hkey]
      exact congrArg (entry.1 :: ·) (ih h)

theorem nodup_keys_set (hd : (keys d).Nodup) (key : κ) (value : ν) : (keys (set d key value)).Nodup := by
  cases hget : get d key with
  | none =>
    rw [set_of_absent (get_eq_none_iff.mp hget)]
    exact nodup_keys_append hd (get_eq_none_iff.mp hget)
  | some held => rwa [keys_set hget]

theorem get_of_mem (hd : (keys d).Nodup) (h : (key, value) ∈ d) : get d key = some value := by
  cases hget : get d key with
  | none => exact absurd (mem_keys_of_mem h) (get_eq_none_iff.mp hget)
  | some other => rw [eq_of_mem hd (mem_of_get hget) h]

theorem mem_erase {entry : κ × ν} : entry ∈ erase d key ↔ entry ∈ d ∧ entry.1 ≠ key := by
  simp [erase]

theorem mem_set {entry : κ × ν} (h : entry ∈ set d key value) : entry ∈ d ∨ entry = (key, value) := by
  induction d with
  | nil => exact .inr (List.mem_singleton.mp h)
  | cons first d ih =>
    unfold set at h
    split at h
    · rcases List.mem_cons.mp h with h | h
      · exact .inr h
      · exact .inl (List.mem_cons_of_mem _ h)
    · rcases List.mem_cons.mp h with h | h
      · exact .inl (h ▸ List.mem_cons_self)
      · exact (ih h).imp_left (List.mem_cons_of_mem _)

/-- The entries in turn, a later value of a key in the place of an earlier one. -/
def ofList (entries : List (κ × ν)) : Dict κ ν := entries.foldl (fun d entry => set d entry.1 entry.2) []

theorem get_foldl_set (key : κ) : ∀ (entries : List (κ × ν)) (d : Dict κ ν),
    (∃ value, get (entries.foldl (fun d entry => set d entry.1 entry.2) d) key = some value ∧ (key, value) ∈ entries) ∨
      key ∉ entries.map Prod.fst ∧ get (entries.foldl (fun d entry => set d entry.1 entry.2) d) key = get d key
  | [], _ => .inr ⟨List.not_mem_nil, rfl⟩
  | entry :: entries, d => by
      rw [List.foldl_cons]
      obtain ⟨value, hget, hmem⟩ | ⟨hnot, hget⟩ := get_foldl_set key entries (set d entry.1 entry.2)
      · exact .inl ⟨value, hget, List.mem_cons_of_mem _ hmem⟩
      · rw [get_set] at hget
        by_cases hkey : entry.1 = key
        · rw [if_pos hkey] at hget
          exact .inl ⟨entry.2, hget, hkey ▸ List.mem_cons_self⟩
        · rw [if_neg hkey] at hget
          exact .inr ⟨fun hmem => (List.mem_cons.mp hmem).elim (Ne.symm hkey) hnot, hget⟩

theorem get_ofList_mem {entries : List (κ × ν)} (h : key ∈ entries.map Prod.fst) :
    ∃ value, get (ofList entries) key = some value ∧ (key, value) ∈ entries :=
  (get_foldl_set key entries []).resolve_right fun hnot => hnot.1 h

theorem get_ofList {entries : List (κ × ν)} (hall : ∀ other, (key, other) ∈ entries → other = value)
    (hmem : key ∈ entries.map Prod.fst) : get (ofList entries) key = some value := by
  obtain ⟨other, hget, hother⟩ := get_ofList_mem hmem
  rw [hget, hall other hother]

end Dict

end Ceres.Library
