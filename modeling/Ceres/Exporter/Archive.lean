/-
  File:      Ceres/Exporter/Archive.lean
  Subject:   A DATABASE, THE FILES WRITTEN FROM IT, and when writing a file again is safe.

  The database gains records and is pruned from its old end; a file, once written, keeps what it took.
  Writing a file again from the database loses what only the file holds. Two pieces of evidence speak
  against that: the database's oldest record, and a LICENCE given earlier to write a file again.

  * `Archive` -- the records stored and the files; `store`, `prune`, `write`, `history`;
  * `KeepsRecords` -- what a step takes from a file the database holds;
  * `Sound` -- the invariant: a file that holds a record the database lost starts before all the
    database holds, and the database holds nothing of the period of such a file under licence;
  * `StoreOk`, `PruneOk` -- what a store and a prune must not do for that to stay so;
  * `Sound.store`, `Sound.prune`, `Sound.write`, **`Sound.license`** -- how it is kept, and
    **`Sound.keeps_write`** -- a file under licence loses nothing.
-/
import Ceres.Exporter.Span

namespace Ceres.Exporter

/-- The stored records of one exporter, and its files by the start of the period they cover. -/
structure Archive (ρ : Type) where
  db : List ρ
  files : List (Option Int × List ρ)

namespace Archive

variable {ρ : Type} (time : ρ → Int)

def empty : Archive ρ := ⟨[], []⟩

def file (A : Archive ρ) (name : Option Int) : Option (List ρ) := A.files.lookup name

/-- The records of a file, none when it does not exist. -/
def held (A : Archive ρ) (name : Option Int) : List ρ := (A.file name).getD []

def store (A : Archive ρ) (records : List ρ) : Archive ρ := { A with db := A.db ++ records }

/-- Remove every record older than the cutoff. -/
def prune (A : Archive ρ) (cutoff : Int) : Archive ρ :=
  { A with db := A.db.filter fun r => decide (cutoff ≤ time r) }

/-- The stored records a range selects. -/
def query (A : Archive ρ) (span : ExportSpan) : List ρ := A.db.filter fun r => span.holds (time r)

/-- Replace a file, or create it. -/
def write (A : Archive ρ) (name : Option Int) (records : List ρ) : Archive ρ :=
  { A with files := (name, records) :: A.files.filter fun f => decide (f.1 ≠ name) }

def remove (A : Archive ρ) (name : Option Int) : Archive ρ :=
  { A with files := A.files.filter fun f => decide (f.1 ≠ name) }

/-- The timestamp of the oldest record. -/
def history (A : Archive ρ) : Option Int := (A.db.map time).min?

/-! ## 1. Files -/

variable {A : Archive ρ} {name : Option Int}

theorem mem_files_of_held {x : ρ} (h : x ∈ A.held name) : ∃ records, (name, records) ∈ A.files ∧ x ∈ records := by
  unfold held file at h
  cases hl : A.files.lookup name with
  | none => simp [hl] at h
  | some records =>
    rw [hl, Option.getD_some] at h
    obtain ⟨before, after, hfiles, -⟩ := List.lookup_eq_some_iff.mp hl
    exact ⟨records, by rw [hfiles]; simp, h⟩

variable {records : List ρ}

theorem mem_files_write {f : Option Int × List ρ} (h : f ∈ (A.write name records).files) :
    f = (name, records) ∨ f.1 ≠ name ∧ f ∈ A.files := by
  rcases List.mem_cons.mp h with h | h
  · exact .inl h
  · obtain ⟨hmem, hne⟩ := List.mem_filter.mp h
    exact .inr ⟨by simpa using hne, hmem⟩

@[simp] theorem held_write_self (A : Archive ρ) (name : Option Int) (records : List ρ) :
    (A.write name records).held name = records := by
  simp [held, file, write]

theorem lookup_filter_ne {name other : Option Int} (h : other ≠ name) : ∀ files : List (Option Int × List ρ),
      (files.filter fun f => decide (f.1 ≠ name)).lookup other = files.lookup other
  | [] => rfl
  | f :: files => by
    have ih := lookup_filter_ne h files
    by_cases hf : f.1 = name
    · have hne : (other == f.1) = false := by simp [hf, h]
      rw [List.filter_cons_of_neg (by simpa using hf), ih, List.lookup_cons, hne]
    · rw [List.filter_cons_of_pos (by simpa using hf), List.lookup_cons, List.lookup_cons, ih]

theorem held_write_ne (A : Archive ρ) {name other : Option Int} (records : List ρ)
    (h : other ≠ name) : (A.write name records).held other = A.held other := by
  have hne : (other == name) = false := by simpa using h
  unfold held file write
  rw [List.lookup_cons, hne, lookup_filter_ne h]

@[simp] theorem held_store (A : Archive ρ) (records : List ρ) (name : Option Int) :
    (A.store records).held name = A.held name := rfl

@[simp] theorem held_prune (A : Archive ρ) (cutoff : Int) (name : Option Int) :
    (A.prune time cutoff).held name = A.held name := rfl

@[simp] theorem db_write (A : Archive ρ) (name : Option Int) (records : List ρ) :
    (A.write name records).db = A.db := rfl

/-! ## 2. What must not be lost -/

/-- **The purpose of the archive**: a record leaves a file only while the database holds it. -/
def KeepsRecords (A A' : Archive ρ) : Prop :=
  ∀ name, ∀ x ∈ A.held name, x ∉ A'.held name → x ∈ A.db

theorem keepsRecords_of_held {A A' : Archive ρ} (h : ∀ name, A'.held name = A.held name) : KeepsRecords A A' := by
  intro name x hx hgone
  rw [h name] at hgone
  exact absurd hx hgone

/-- A write that takes the place of a file all of whose records are stored. -/
theorem keepsRecords_write (h : ∀ x ∈ A.held name, x ∈ A.db) : KeepsRecords A (A.write name records) := by
  intro other x hx hgone
  by_cases hname : other = name
  · subst hname
    exact h x hx
  · rw [held_write_ne A records hname] at hgone
    exact absurd hx hgone

/-- The invariant, for the whole ranges of the files that are under licence to be written again. -/
structure Sound (A : Archive ρ) (licences : List ExportSpan) : Prop where
  /-- A file holds records of its period only, so none before its start. -/
  starts : ∀ f ∈ A.files, ∀ x ∈ f.2, ∀ a ∈ f.1, a ≤ time x
  /-- What the database lost of a file is older than everything it still holds. -/
  lost : ∀ f ∈ A.files, ∀ x ∈ f.2, x ∉ A.db → ∀ a ∈ f.1, ∀ y ∈ A.db, a < time y
  /-- Of the period of a file under licence the database holds every record the file does, or none
      at all. -/
  licensed : ∀ whole ∈ licences, ∀ x ∈ A.held whole.after, x ∉ A.db →
    ∀ y ∈ A.db, whole.holds (time y) = false

/-- A store adds no record at or before the start of a file that holds a record the database lost,
    and none of such a file's period when the file is under licence. -/
def StoreOk (A : Archive ρ) (licences : List ExportSpan) (records : List ρ) : Prop :=
  (∀ f ∈ A.files, ∀ x ∈ f.2, x ∉ A.db → x ∉ records → ∀ a ∈ f.1, ∀ r ∈ records, a < time r) ∧
    ∀ whole ∈ licences, ∀ x ∈ A.held whole.after, x ∉ A.db → x ∉ records →
      ∀ r ∈ records, whole.holds (time r) = false

/-- A prune removes no record that a file under licence holds. -/
def PruneOk (A : Archive ρ) (licences : List ExportSpan) (cutoff : Int) : Prop :=
  ∀ whole ∈ licences, ∀ x ∈ A.held whole.after, x ∈ A.db → cutoff ≤ time x

instance [DecidableEq ρ] (A : Archive ρ) (licences : List ExportSpan) (records : List ρ) :
    Decidable (StoreOk time A licences records) := by
  unfold StoreOk
  infer_instance

instance [DecidableEq ρ] (A : Archive ρ) (licences : List ExportSpan) (cutoff : Int) :
    Decidable (PruneOk time A licences cutoff) := by
  unfold PruneOk
  infer_instance

variable {time}

theorem sound_empty : Sound time (empty : Archive ρ) [] := by
  refine ⟨?_, ?_, ?_⟩ <;> simp [empty]

theorem Sound.mono {licences fewer : List ExportSpan} (h : Sound time A licences)
    (hsub : ∀ whole ∈ fewer, whole ∈ licences) : Sound time A fewer :=
  ⟨h.starts, h.lost, fun whole hwhole => h.licensed whole (hsub whole hwhole)⟩

variable {licences : List ExportSpan}

theorem Sound.store (h : Sound time A licences) (hok : StoreOk time A licences records) :
    Sound time (A.store records) licences := by
  refine ⟨h.starts, ?_, ?_⟩
  · intro f hf x hx hgone a ha y hy
    obtain ⟨hdb, hrec⟩ : x ∉ A.db ∧ x ∉ records := by simpa [Archive.store] using hgone
    rcases List.mem_append.mp hy with hy | hy
    · exact h.lost f hf x hx hdb a ha y hy
    · exact hok.1 f hf x hx hdb hrec a ha y hy
  · intro whole hwhole x hx hgone y hy
    obtain ⟨hdb, hrec⟩ : x ∉ A.db ∧ x ∉ records := by simpa [Archive.store] using hgone
    rcases List.mem_append.mp hy with hy | hy
    · exact h.licensed whole hwhole x hx hdb y hy
    · exact hok.2 whole hwhole x hx hdb hrec y hy

theorem mem_query {span : ExportSpan} {x : ρ} :
    x ∈ A.query time span ↔ x ∈ A.db ∧ span.holds (time x) = true := by
  simp [Archive.query]

theorem mem_prune {cutoff : Int} {x : ρ} : x ∈ (A.prune time cutoff).db ↔ x ∈ A.db ∧ cutoff ≤ time x := by
  simp [Archive.prune]

theorem Sound.prune {cutoff : Int} (h : Sound time A licences) (hok : PruneOk time A licences cutoff) :
    Sound time (A.prune time cutoff) licences := by
  refine ⟨h.starts, ?_, ?_⟩
  · intro f hf x hx hgone a ha y hy
    obtain ⟨hy, hcut⟩ := mem_prune.mp hy
    by_cases hdb : x ∈ A.db
    · -- what this prune removed is older than all it left
      have hold : time x < cutoff := by
        by_contra hle
        exact hgone (mem_prune.mpr ⟨hdb, not_lt.mp hle⟩)
      have hstart := h.starts f hf x hx a ha
      omega
    · exact h.lost f hf x hx hdb a ha y hy
  · intro whole hwhole x hx hgone y hy
    obtain ⟨hy, -⟩ := mem_prune.mp hy
    by_cases hdb : x ∈ A.db
    · exact absurd (mem_prune.mpr ⟨hdb, hok whole hwhole x hx hdb⟩) hgone
    · exact h.licensed whole hwhole x hx hdb y hy

theorem Sound.write (h : Sound time A licences) (hrec : ∀ x ∈ records, x ∈ A.db)
    (hstart : ∀ x ∈ records, ∀ a ∈ name, a ≤ time x) : Sound time (A.write name records) licences := by
  refine ⟨?_, ?_, ?_⟩
  · intro f hf x hx a ha
    rcases mem_files_write hf with rfl | ⟨-, hf⟩
    · exact hstart x hx a ha
    · exact h.starts f hf x hx a ha
  · intro f hf x hx hgone
    rcases mem_files_write hf with rfl | ⟨-, hf⟩
    · exact absurd (hrec x hx) hgone
    · exact h.lost f hf x hx hgone
  · intro whole hwhole x hx hgone
    by_cases hname : whole.after = name
    · rw [hname, held_write_self] at hx
      exact absurd (hrec x hx) hgone
    · rw [held_write_ne A records hname] at hx
      exact h.licensed whole hwhole x hx hgone

/-- **A licence by history.** A file that does not start before the oldest stored record may be
    written again. -/
theorem Sound.license {whole : ExportSpan} (h : Sound time A licences)
    (hwhole : beforeHistory whole (A.history time) = false) : Sound time A (whole :: licences) := by
  refine ⟨h.starts, h.lost, ?_⟩
  intro other hother x hx hgone y hy
  rcases List.mem_cons.mp hother with rfl | hother
  · obtain ⟨records, hf, hx⟩ := mem_files_of_held hx
    cases ha : other.after with
    | none => simp [beforeHistory, ha] at hwhole
    | some a =>
      cases hmin : A.history time with
      | none =>
        have hnil : A.db = [] := by simpa [history, List.min?_eq_none_iff] using hmin
        rw [hnil] at hy
        exact absurd hy List.not_mem_nil
      | some oldest =>
        have hle : oldest ≤ a := by simpa [beforeHistory, ha, hmin] using hwhole
        obtain ⟨y₀, hy₀, rfl⟩ := List.mem_map.mp (List.min?_mem hmin)
        have hlt := h.lost _ hf x hx hgone a (by simp [ha]) y₀ hy₀
        omega
  · exact h.licensed other hother x hx hgone y hy

theorem Sound.license_all (wholes : List ExportSpan) (h : Sound time A licences)
    (hall : ∀ whole ∈ wholes, beforeHistory whole (A.history time) = false) :
    Sound time A (wholes ++ licences) := by
  induction wholes with
  | nil => exact h
  | cons whole wholes ih =>
    have hrest := ih fun other hother => hall other (List.mem_cons_of_mem _ hother)
    exact hrest.license (hall whole List.mem_cons_self)

/-- A file that holds nothing may be written again. -/
theorem Sound.license_missing {whole : ExportSpan} (h : Sound time A licences)
    (hmissing : A.held whole.after = []) : Sound time A (whole :: licences) := by
  refine ⟨h.starts, h.lost, ?_⟩
  intro other hother x hx hgone y hy
  rcases List.mem_cons.mp hother with rfl | hother
  · rw [hmissing] at hx
    exact absurd hx List.not_mem_nil
  · exact h.licensed other hother x hx hgone y hy

/-- **A file under licence loses nothing** when it is written again from some records of its
    period. -/
theorem Sound.keeps_write {whole : ExportSpan} {y : ρ} (h : Sound time A licences) (hwhole : whole ∈ licences)
    (hy : y ∈ A.db) (hin : whole.holds (time y) = true) (records : List ρ) :
    KeepsRecords A (A.write whole.after records) := by
  apply keepsRecords_write
  intro x hx
  by_contra hgone
  rw [h.licensed whole hwhole x hx hgone y hy] at hin
  exact absurd hin Bool.false_ne_true

end Archive

end Ceres.Exporter
