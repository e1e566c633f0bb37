/-
  File:      Ceres/Server/Uploads.lean
  Subject:   CONDITIONAL UPLOADS TO ONE TARGET (`rust/ceres-server/src/api/files.rs`: `upload`, `PartFile`,
             `UploadConditions`, `sweep_if_stale`).

  An upload writes its body to a part beside the target and then gives it the target's name: by a hard
  link, which fails where something stands, or by a rename, which replaces it. Its preconditions are
  checked before the body and once more before it is placed. A hard link and a rename are one step each,
  and so is the check in front of them.

  * `step` -- the uploads, deletes of the target and sweeps of parts, in any order;
  * `Kept` -- the target is absent or one whole body, an upload that was to create found nothing, and one
    that was to replace a version replaced it;
  * `Calm` -- where a part is renamed into place, its preconditions still hold of what stands there;
  * **`uploads_kept`** -- every state of a run is `Kept` exactly when each of its steps is calm;
  * `update_lost` -- two uploads that replace one version.
-/
import Ceres.Library.Run

namespace Ceres.Server.Uploads

open Ceres.Library

set_option linter.unusedSectionVars false

variable {β : Type}

/-! ## 1. The uploads -/

/-- A stored version, with the tag that a read serves for it. -/
structure File (β : Type) where
  tag : Nat
  content : List β

inductive Status where
  | created
  | noContent
  | preconditionFailed
  /-- The part was swept before the upload finished. -/
  | expired
  /-- The body did not arrive whole. -/
  | failed
  deriving DecidableEq

/-- The preconditions an upload carries, `If-None-Match: *` and `If-Match`; `none` is the tag `*`. -/
structure UploadConditions where
  createOnly : Bool
  ifMatch : Option (List (Option Nat))

namespace UploadConditions

def matched (tags : List (Option Nat)) (file : File β) : Bool :=
  tags.any fun tag => tag.all fun tag => decide (tag = file.tag)

def check (conditions : UploadConditions) (existing : Option (File β)) : Except Status Unit :=
  match existing with
  | none => if conditions.ifMatch.isSome then .error .preconditionFailed else .ok ()
  | some file =>
    if conditions.createOnly || !conditions.ifMatch.all (fun tags => matched tags file) then
      .error .preconditionFailed
    else .ok ()

end UploadConditions

/-- How far an upload is. An answer is marked with what stood at the target when the upload placed its
    file, if it did. -/
inductive Phase (β : Type) where
  | writing
  | checked (existing : Option (File β))
  /-- No hard link is to be had, and a rename is next. -/
  | unlinked (existing : Option (File β))
  | answered (status : Status) (stood : Option (Option (File β)))

structure Upload (β : Type) where
  conditions : UploadConditions
  body : List β
  /-- What the part holds, and whether it still has its name. -/
  written : List β
  part : Bool
  phase : Phase β

structure State (β : Type) where
  initial : Option (File β)
  target : Option (File β)
  uploads : List (Upload β)

/-- What stood at the target before, tagged 0; the upload `i` is tagged `i + 1`. -/
def State.start (content : Option (List β)) : State β where
  initial := content.map fun content => ⟨0, content⟩
  target := content.map fun content => ⟨0, content⟩
  uploads := []

inductive Action (β : Type) where
  | begin (conditions : UploadConditions) (body : List β)
  /-- The next chunk of the body reaches the part. -/
  | write (upload : Nat)
  | fail (upload : Nat)
  | check (upload : Nat)
  | link (upload : Nat) (supported : Bool)
  | rename (upload : Nat)
  | discard (upload : Nat)
  | delete
  | sweep (upload : Nat)

namespace Upload

def begin (conditions : UploadConditions) (body : List β) (target : Option (File β)) : Upload β :=
  match conditions.check target with
  | .ok () => ⟨conditions, body, [], true, .writing⟩
  | .error status => ⟨conditions, body, [], false, .answered status none⟩

def write (upload : Upload β) : Option (Upload β) :=
  match upload.phase, upload.body.drop upload.written.length with
  | .writing, chunk :: _ => some { upload with written := upload.written ++ [chunk] }
  | _, _ => none

/-- An answer without placing; the part is discarded. -/
def refuse (upload : Upload β) (status : Status) : Upload β :=
  { upload with
    part := false
    phase := .answered status none }

def fail (upload : Upload β) : Option (Upload β) :=
  match upload.phase with
  | .writing => some (upload.refuse .failed)
  | _ => none

/-- `commit` up to its check, once the body is whole. -/
def check (upload : Upload β) (target : Option (File β)) : Option (Upload β) :=
  match upload.phase, decide (upload.written.length = upload.body.length) with
  | .writing, true =>
    match upload.conditions.check target with
    | .ok () => some { upload with phase := .checked target }
    | .error status => some (upload.refuse status)
  | _, _ => none

/-- What the check found, where a rename is next. -/
def renames (upload : Upload β) : Option (Option (File β)) :=
  match upload.phase with
  | .checked existing => if upload.conditions.createOnly then none else some existing
  | .unlinked existing => some existing
  | _ => none

end Upload

namespace State

/-- One upload takes a step. -/
def change (s : State β) (i : Nat) (f : Upload β → Option (Upload β)) : Option (State β) :=
  s.uploads[i]?.bind fun upload => (f upload).map fun upload => { s with uploads := s.uploads.set i upload }

/-- The part becomes the target. -/
def placed (s : State β) (i : Nat) (upload : Upload β) (status : Status) (part : Bool) : State β :=
  { s with
    target := some ⟨i + 1, upload.written⟩
    uploads := s.uploads.set i
      { upload with
        part := part
        phase := .answered status (some s.target) } }

/-- The hard link of an upload that is only to create. A missing part makes it fail like a filesystem
    without hard links does. -/
def link (s : State β) (i : Nat) (supported : Bool) (upload : Upload β) : Option (State β) :=
  match upload.phase, upload.conditions.createOnly with
  | .checked existing, true =>
    if upload.part && supported then
      match s.target with
      | some _ => some { s with uploads := s.uploads.set i (upload.refuse .preconditionFailed) }
      -- the part keeps its name until it is discarded
      | none => some (s.placed i upload .created true)
    else some { s with uploads := s.uploads.set i { upload with phase := .unlinked existing } }
  | _, _ => none

def rename (s : State β) (i : Nat) (upload : Upload β) : Option (State β) :=
  upload.renames.map fun existing =>
    if upload.part then
      s.placed i upload (if existing.isNone then .created else .noContent) false
    else { s with uploads := s.uploads.set i (upload.refuse .expired) }

end State

def step (s : State β) : Action β → Option (State β)
  | .begin conditions body => some { s with uploads := s.uploads ++ [.begin conditions body s.target] }
  | .write i => s.change i Upload.write
  | .fail i => s.change i Upload.fail
  | .check i => s.change i fun upload => upload.check s.target
  | .link i supported => s.uploads[i]?.bind (s.link i supported)
  | .rename i => s.uploads[i]?.bind (s.rename i)
  | .discard i =>
    s.change i fun upload =>
      match upload.phase with
      | .answered _ _ => some { upload with part := false }
      | _ => none
  | .delete => some { s with target := none }
  | .sweep i => s.change i fun upload => some { upload with part := false }

/-! ## 2. What is kept -/

/-- What an answer says is so. -/
structure Upload.Honest (upload : Upload β) : Prop where
  /-- It was to create, answered that it did, and found nothing. -/
  creates : ∀ stood, upload.phase = .answered .created stood → upload.conditions.createOnly = true →
    stood = some none
  /-- It was to replace one of the tagged versions, and did. -/
  replaces : ∀ status stood tags, upload.phase = .answered status stood →
    status = .created ∨ status = .noContent → upload.conditions.ifMatch = some tags →
      ∃ file, stood = some (some file) ∧ UploadConditions.matched tags file = true

structure Kept (s : State β) : Prop where
  /-- The target is absent, what it was at first, or one upload's whole body. -/
  whole : ∀ file ∈ s.target, s.initial = some file ∨
    ∃ (i : Nat) (upload : Upload β), s.uploads[i]? = some upload ∧ file = ⟨i + 1, upload.body⟩
  honest : ∀ upload ∈ s.uploads, upload.Honest

/-- Where a part is renamed into place, the upload's preconditions still hold. -/
def Calm (s : State β) : Action β → Prop
  | .rename i => ∀ upload ∈ s.uploads[i]?, upload.renames.isSome = true → upload.part = true →
      upload.conditions.check s.target = .ok ()
  | _ => True

/-- How far an upload is, and what it has by then. -/
structure Upload.Sound (upload : Upload β) : Prop where
  honest : upload.Honest
  written : upload.phase = .writing → upload.written <+: upload.body
  checked : ∀ existing, upload.phase = .checked existing ∨ upload.phase = .unlinked existing →
    upload.written = upload.body ∧ upload.conditions.check existing = .ok ()

structure Inv (s : State β) : Prop where
  whole : ∀ file ∈ s.target, s.initial = some file ∨
    ∃ (i : Nat) (upload : Upload β), s.uploads[i]? = some upload ∧ file = ⟨i + 1, upload.body⟩
  uploads : ∀ upload ∈ s.uploads, upload.Sound

theorem inv_start (content : Option (List β)) : Inv (State.start content) := by
  refine ⟨fun file hfile => .inl hfile, ?_⟩
  exact fun upload hupload => absurd hupload List.not_mem_nil

theorem Inv.kept {s : State β} (h : Inv s) : Kept s :=
  ⟨h.whole, fun upload hupload => (h.uploads upload hupload).honest⟩

/-! ## 3. One upload -/

theorem honest_of_unanswered {upload : Upload β} (h : ∀ status stood, upload.phase ≠ .answered status stood) :
    upload.Honest :=
  ⟨fun stood hphase => absurd hphase (h _ stood), fun status stood _ hphase => absurd hphase (h status stood)⟩

variable {status : Status}

theorem answered_sound {upload : Upload β} {stood : Option (Option (File β))}
    (hphase : upload.phase = .answered status stood) (hhonest : upload.Honest) : upload.Sound := by
  refine ⟨hhonest, ?_, ?_⟩
  · intro hwriting
    rw [hphase] at hwriting
    exact absurd hwriting (by simp)
  · intro existing hchecked
    rw [hphase] at hchecked
    exact absurd hchecked (by simp)

theorem refuse_sound (upload : Upload β) (h : status ≠ .created ∧ status ≠ .noContent) :
    (upload.refuse status).Sound := by
  refine answered_sound rfl ⟨?_, ?_⟩
  · intro stood hphase
    exact absurd (Phase.answered.inj hphase).1 h.1
  · intro other stood tags hphase hsuccess
    rw [← (Phase.answered.inj hphase).1] at hsuccess
    exact (hsuccess.elim h.1 h.2).elim

variable {existing : Option (File β)} {conditions : UploadConditions}

theorem check_error (h : conditions.check existing = .error status) : status = .preconditionFailed := by
  unfold UploadConditions.check at h
  split at h
  · split at h
    · exact (Except.error.inj h).symm
    · exact absurd h (by simp)
  · split at h
    · exact (Except.error.inj h).symm
    · exact absurd h (by simp)

theorem begin_sound (conditions : UploadConditions) (body : List β) (target : Option (File β)) :
    (Upload.begin conditions body target).Sound := by
  unfold Upload.begin
  split
  · refine ⟨honest_of_unanswered (by simp), fun _ => List.nil_prefix, ?_⟩
    exact fun existing hchecked => absurd hchecked (by simp)
  · rename_i status hstatus
    have hrefused := refuse_sound (⟨conditions, body, [], false, .writing⟩ : Upload β)
      (show status ≠ .created ∧ status ≠ .noContent by simp [check_error hstatus])
    exact hrefused

/-- What an upload's own steps keep: its body, and that it is sound. -/
structure Advances (upload upload' : Upload β) : Prop where
  body : upload'.body = upload.body
  sound : upload'.Sound

theorem write_advances {upload upload' : Upload β} (h : upload.Sound) (hwrite : upload.write = some upload') :
    Advances upload upload' := by
  unfold Upload.write at hwrite
  split at hwrite
  · rename_i chunk rest hphase hdrop
    obtain rfl := Option.some.inj hwrite
    refine ⟨rfl, honest_of_unanswered (by simp [hphase]), fun _ => ?_, ?_⟩
    · obtain ⟨more, hmore⟩ := h.written hphase
      -- the next chunk is what follows the chunks written
      rw [← hmore, List.drop_left] at hdrop
      exact ⟨rest, by rw [← hmore, hdrop, List.append_assoc]; rfl⟩
    · intro existing hchecked
      simp only [hphase] at hchecked
      exact absurd hchecked (by simp)
  · exact absurd hwrite (by simp)

theorem fail_advances {upload upload' : Upload β} (hfail : upload.fail = some upload') :
    Advances upload upload' := by
  unfold Upload.fail at hfail
  split at hfail
  · obtain rfl := Option.some.inj hfail
    exact ⟨rfl, refuse_sound upload (by simp)⟩
  · exact absurd hfail (by simp)

theorem check_advances {upload upload' : Upload β} {target : Option (File β)} (h : upload.Sound)
    (hcheck : upload.check target = some upload') : Advances upload upload' := by
  unfold Upload.check at hcheck
  split at hcheck
  · rename_i hphase hlength
    split at hcheck
    · rename_i hok
      obtain rfl := Option.some.inj hcheck
      refine ⟨rfl, honest_of_unanswered (by simp), fun hwriting => absurd hwriting (by simp), ?_⟩
      intro existing hchecked
      have heq : target = existing := by simpa using hchecked
      rw [← heq]
      exact ⟨(h.written hphase).eq_of_length (of_decide_eq_true hlength), hok⟩
    · rename_i status hstatus
      obtain rfl := Option.some.inj hcheck
      exact ⟨rfl, refuse_sound upload (by simp [check_error hstatus])⟩
  · exact absurd hcheck (by simp)

theorem part_advances {upload : Upload β} (h : upload.Sound) (part : Bool) :
    Advances upload { upload with part := part } :=
  ⟨rfl, ⟨h.honest.creates, h.honest.replaces⟩, h.written, h.checked⟩

/-- **What the check admits**: nothing, if no version is asked for, or a file that may be replaced. -/
theorem check_ok_iff : conditions.check existing = .ok () ↔
      (existing = none → conditions.ifMatch = none) ∧ ∀ file ∈ existing, conditions.createOnly = false ∧
        ∀ tags ∈ conditions.ifMatch, UploadConditions.matched tags file = true := by
  unfold UploadConditions.check
  cases existing with
  | none =>
    cases hmatch : conditions.ifMatch with
    | none => simp
    | some tags => simp
  | some file =>
    cases hmatch : conditions.ifMatch with
    | none => simp
    | some tags => simp

/-- An upload that is only to create was checked against nothing, and asks for no version. -/
theorem check_createOnly (h : conditions.check existing = .ok ()) (hcreate : conditions.createOnly = true) :
    existing = none ∧ conditions.ifMatch = none := by
  obtain ⟨hnone, hfile⟩ := check_ok_iff.mp h
  cases existing with
  | none => exact ⟨rfl, hnone rfl⟩
  | some file =>
    have hfalse := (hfile file rfl).1
    rw [hcreate] at hfalse
    exact absurd hfalse (by simp)

theorem placed_honest {upload : Upload β} {target : Option (File β)} {part : Bool}
    (h : upload.conditions.check target = .ok ()) :
    Upload.Honest { upload with part := part, phase := .answered status (some target) } := by
  obtain ⟨hnone, hfile⟩ := check_ok_iff.mp h
  constructor
  · intro stood hphase hcreate
    rw [← (Phase.answered.inj hphase).2, (check_createOnly h hcreate).1]
  · intro other stood tags hphase _ hmatch
    rw [← (Phase.answered.inj hphase).2]
    cases target with
    | none => exact absurd ((hnone rfl).symm.trans hmatch) (by simp)
    | some file => exact ⟨file, rfl, (hfile file rfl).2 tags hmatch⟩

theorem check_of_honest {upload : Upload β} {existing target : Option (File β)} {part : Bool}
    (h : upload.conditions.check existing = .ok ()) (hhonest : Upload.Honest { upload with
        part := part, phase := .answered (if existing.isNone then .created else .noContent) (some target) }) :
    upload.conditions.check target = .ok () := by
  rw [check_ok_iff]
  by_cases hcreate : upload.conditions.createOnly = true
  · obtain ⟨hexisting, hmatch⟩ := check_createOnly h hcreate
    subst hexisting
    have htarget : target = none := Option.some.inj (hhonest.creates (some target) rfl hcreate)
    subst htarget
    exact ⟨fun _ => hmatch, fun file hfile => absurd hfile (by simp)⟩
  · have hsuccess : (if existing.isNone then Status.created else .noContent) = .created ∨
        (if existing.isNone then Status.created else .noContent) = .noContent := by
      split
      · exact .inl rfl
      · exact .inr rfl
    cases hmatch : upload.conditions.ifMatch with
    | none => exact ⟨fun _ => rfl, fun file _ => ⟨by simpa using hcreate, by simp⟩⟩
    | some tags =>
      obtain ⟨file, htarget, hmatched⟩ := hhonest.replaces _ (some target) tags rfl hsuccess hmatch
      obtain rfl := Option.some.inj htarget
      refine ⟨fun hnone => absurd hnone (by simp), fun other hother => ⟨by simpa using hcreate, ?_⟩⟩
      intro tags' htags'
      rw [← Option.some.inj hother, ← Option.some.inj htags']
      exact hmatched

/-! ## 4. The steps -/

variable {i : Nat}

theorem uploaded_of_set {uploads : List (Upload β)} {upload upload' : Upload β} {file : File β}
    (hi : uploads[i]? = some upload) (hbody : upload'.body = upload.body)
    (h : ∃ (j : Nat) (other : Upload β), uploads[j]? = some other ∧ file = ⟨j + 1, other.body⟩) :
    ∃ (j : Nat) (other : Upload β), (uploads.set i upload')[j]? = some other ∧ file = ⟨j + 1, other.body⟩ := by
  obtain ⟨j, other, hother, hfile⟩ := h
  by_cases hij : i = j
  · subst hij
    refine ⟨i, upload', ?_, ?_⟩
    · rw [List.getElem?_set_self (List.getElem?_eq_some_iff.mp hi).1]
    · rw [hi] at hother
      rw [hfile, hbody, Option.some.inj hother]
  · refine ⟨j, other, ?_, hfile⟩
    rw [List.getElem?_set_ne hij]
    exact hother

theorem set_sound {uploads : List (Upload β)} {upload' : Upload β} (h : ∀ upload ∈ uploads, upload.Sound)
    (hsound : upload'.Sound) : ∀ upload ∈ uploads.set i upload', upload.Sound := by
  intro upload hupload
  rcases List.mem_or_eq_of_mem_set hupload with hold | rfl
  · exact h upload hold
  · exact hsound

/-- One upload goes on and the target stays. -/
theorem advance_inv {s : State β} {upload upload' : Upload β} (h : Inv s) (hi : s.uploads[i]? = some upload)
    (hadvances : Advances upload upload') : Inv { s with uploads := s.uploads.set i upload' } := by
  refine ⟨fun file hfile => ?_, set_sound h.uploads hadvances.sound⟩
  exact (h.whole file hfile).imp_right (uploaded_of_set hi hadvances.body)

theorem change_inv {s s' : State β} {f : Upload β → Option (Upload β)} (h : Inv s)
    (hf : ∀ upload upload', upload.Sound → f upload = some upload' → Advances upload upload')
    (hchange : s.change i f = some s') : Inv s' := by
  obtain ⟨upload, hi, hchange⟩ := Option.bind_eq_some_iff.mp hchange
  obtain ⟨upload', hf', rfl⟩ := Option.map_eq_some_iff.mp hchange
  exact advance_inv h hi (hf upload upload' (h.uploads upload (List.mem_of_getElem? hi)) hf')

/-- **A part becomes the target**, and its whole body with it. -/
theorem placed_inv {s : State β} {upload : Upload β} {part : Bool} (h : Inv s)
    (hi : s.uploads[i]? = some upload) (hwritten : upload.written = upload.body)
    (hhonest : Upload.Honest { upload with part := part, phase := .answered status (some s.target) }) :
    Inv (s.placed i upload status part) := by
  constructor
  · intro file hfile
    rw [← Option.some.inj hfile, hwritten]
    refine .inr ⟨i, { upload with part := part, phase := .answered status (some s.target) }, ?_, rfl⟩
    exact List.getElem?_set_self (List.getElem?_eq_some_iff.mp hi).1
  · exact set_sound h.uploads (answered_sound rfl hhonest)

theorem link_inv {s s' : State β} {supported : Bool} {upload : Upload β} (h : Inv s)
    (hi : s.uploads[i]? = some upload) (hlink : s.link i supported upload = some s') : Inv s' := by
  have hsound := h.uploads upload (List.mem_of_getElem? hi)
  unfold State.link at hlink
  split at hlink
  · rename_i existing hphase hcreate
    obtain ⟨hwritten, hcheck⟩ := hsound.checked existing (.inl hphase)
    split at hlink
    · split at hlink
      · obtain rfl := Option.some.inj hlink
        exact advance_inv h hi ⟨rfl, refuse_sound upload (by simp)⟩
      · rename_i htarget
        obtain rfl := Option.some.inj hlink
        refine placed_inv h hi hwritten (placed_honest ?_)
        rw [htarget, ← (check_createOnly hcheck hcreate).1]
        exact hcheck
    · obtain rfl := Option.some.inj hlink
      refine advance_inv h hi ⟨rfl, honest_of_unanswered (by simp), fun hwriting => ?_, ?_⟩
      · exact absurd hwriting (by simp)
      · intro other hother
        have heq : existing = other := by simpa using hother
        rw [← heq]
        exact ⟨hwritten, hcheck⟩
  · exact absurd hlink (by simp)

/-- What a rename rests on. -/
theorem renames_checked {upload : Upload β} (h : upload.Sound) (hrenames : upload.renames = some existing) :
    upload.written = upload.body ∧ upload.conditions.check existing = .ok () := by
  unfold Upload.renames at hrenames
  split at hrenames
  · rename_i found hphase
    split at hrenames
    · exact absurd hrenames (by simp)
    · rw [← Option.some.inj hrenames]
      exact h.checked found (.inl hphase)
  · rename_i found hphase
    rw [← Option.some.inj hrenames]
    exact h.checked found (.inr hphase)
  · exact absurd hrenames (by simp)

theorem rename_inv {s s' : State β} {upload : Upload β} (h : Inv s) (hi : s.uploads[i]? = some upload)
    (hrename : s.rename i upload = some s') (hcalm : upload.renames.isSome = true → upload.part = true →
      upload.conditions.check s.target = .ok ()) : Inv s' := by
  obtain ⟨existing, hrenames, rfl⟩ := Option.map_eq_some_iff.mp hrename
  obtain ⟨hwritten, _⟩ := renames_checked (h.uploads upload (List.mem_of_getElem? hi)) hrenames
  split
  · rename_i hpart
    exact placed_inv h hi hwritten (placed_honest (hcalm (by simp [hrenames]) hpart))
  · exact advance_inv h hi ⟨rfl, refuse_sound upload (by simp)⟩

/-- **One step** that is calm. -/
theorem step_inv (s : State β) (a : Action β) (s' : State β) (h : Inv s) (hstep : step s a = some s')
    (hcalm : Calm s a) : Inv s' := by
  cases a with
  | begin conditions body =>
    obtain rfl := Option.some.inj hstep
    constructor
    · intro file hfile
      refine (h.whole file hfile).imp_right fun hold => ?_
      obtain ⟨i, upload, hi, heq⟩ := hold
      refine ⟨i, upload, ?_, heq⟩
      rw [List.getElem?_append_left (List.getElem?_eq_some_iff.mp hi).1]
      exact hi
    · intro upload hupload
      rcases List.mem_append.mp hupload with hold | hnew
      · exact h.uploads upload hold
      · rw [List.mem_singleton.mp hnew]
        exact begin_sound conditions body s.target
  | write i => exact change_inv h (fun _ _ => write_advances) hstep
  | fail i => exact change_inv h (fun _ _ _ => fail_advances) hstep
  | check i => exact change_inv h (fun _ _ => check_advances) hstep
  | link i supported =>
    obtain ⟨upload, hi, hlink⟩ := Option.bind_eq_some_iff.mp hstep
    exact link_inv h hi hlink
  | rename i =>
    obtain ⟨upload, hi, hrename⟩ := Option.bind_eq_some_iff.mp hstep
    exact rename_inv h hi hrename (hcalm upload hi)
  | discard i =>
    refine change_inv h (fun upload upload' hsound hdiscard => ?_) hstep
    split at hdiscard
    · obtain rfl := Option.some.inj hdiscard
      exact part_advances hsound false
    · exact absurd hdiscard (by simp)
  | delete =>
    obtain rfl := Option.some.inj hstep
    exact ⟨fun file hfile => absurd hfile (by simp), h.uploads⟩
  | sweep i =>
    refine change_inv h (fun upload upload' hsound hsweep => ?_) hstep
    obtain rfl := Option.some.inj hsweep
    exact part_advances hsound false

theorem calm_of_disabled (s : State β) (a : Action β) (h : step s a = none) : Calm s a := by
  cases a with
  | rename i =>
    intro upload hi hrenames
    obtain ⟨existing, hexisting⟩ := Option.isSome_iff_exists.mp hrenames
    rw [Option.mem_def] at hi
    simp only [step, hi, Option.bind_some, State.rename, hexisting, Option.map_some] at h
    exact absurd h (by simp)
  | _ => trivial

theorem calm_of_step (s : State β) (a : Action β) (s' : State β) (h : Inv s)
    (hstep : step s a = some s') (hkept : Kept s') : Calm s a := by
  cases a with
  | rename i =>
    intro upload hi hrenames hpart
    obtain ⟨existing, hexisting⟩ := Option.isSome_iff_exists.mp hrenames
    obtain ⟨_, hcheck⟩ := renames_checked (h.uploads upload (List.mem_of_getElem? hi)) hexisting
    rw [Option.mem_def] at hi
    simp only [step, hi, Option.bind_some, State.rename, hexisting, Option.map_some, hpart, if_true] at hstep
    rw [← Option.some.inj hstep] at hkept
    have hlength := (List.getElem?_eq_some_iff.mp hi).1
    have hplaced : { upload with
        part := false
        phase := .answered (if existing.isNone then .created else .noContent) (some s.target) } ∈
        (s.placed i upload (if existing.isNone then .created else .noContent) false).uploads :=
      List.mem_of_getElem? (List.getElem?_set_self hlength)
    exact check_of_honest hcheck (hkept.honest _ hplaced)
  | _ => trivial

/-- **Conditional uploads lose no update**, in every state of a run of uploads, deletes and sweeps, exactly
    when each upload that renames its part into place does so while its preconditions, which it checked
    before, still hold of what stands there. -/
theorem uploads_kept (content : Option (List β)) (actions : List (Action β)) :
    Always step Kept (State.start content) actions ↔ Along step Calm (State.start content) actions :=
  always_iff_along (fun _ h => h.kept) calm_of_disabled calm_of_step step_inv actions _
    (inv_start content)

/-- **A lost update.** Two uploads that are to replace the version tagged 0 both pass their checks, and
    the second one's rename replaces the first one's version. -/
theorem update_lost :
    ¬ ∀ (content : Option (List Nat)) (actions : List (Action Nat)),
      Always step Kept (State.start content) actions := by
  intro h
  have hrun := h (some [7])
    [.begin ⟨false, some [some 0]⟩ [1], .begin ⟨false, some [some 0]⟩ [2], .write 0, .write 1, .check 0,
      .check 1, .rename 0, .rename 1]
  have hlast : Kept _ :=
    (hrun.2 _ rfl).2 _ rfl |>.2 _ rfl |>.2 _ rfl |>.2 _ rfl |>.2 _ rfl |>.2 _ rfl |>.2 _ rfl
  have hhonest := hlast.honest ⟨⟨false, some [some 0]⟩, [2], [2], false,
    .answered .noContent (some (some ⟨1, [1]⟩))⟩ (List.mem_cons_of_mem _ (List.mem_singleton_self _))
  obtain ⟨file, hfile, hmatched⟩ := hhonest.replaces _ _ _ rfl (.inr rfl) rfl
  obtain rfl := Option.some.inj (Option.some.inj hfile)
  exact absurd hmatched (by decide)

end Ceres.Server.Uploads
