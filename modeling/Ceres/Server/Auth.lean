/-
  File:      Ceres/Server/Auth.lean
  Subject:   IDENTITIES AND IMPERSONATION (`rust/ceres-server/src/auth.rs`, `app.rs`, `api/auth.rs`).

  An identity is a signed token that names a user, an expiry and, when it was taken on by another, the
  administrator who did. Tokens are not kept by the server and outlive changes of the user they name;
  the user's flags are read anew with every request.

  * `identity`, `login`, `refresh`, `impersonate` -- as the source has them; a token is valid when it was
    minted before and is not expired, for none can be forged;
  * `Minted.taken` -- whether a token was taken on, by impersonation or by refreshing one that was;
  * `OwnLogin` -- what an answered impersonation is said to carry: the valid token of an enabled
    administrator, no marker, and not itself taken on;
  * `Guarded` -- a token that passes the gates of `impersonate` was not taken on and its user is enabled;
  * **`impersonations_own_login`** -- along every run the one holds exactly when the other does;
  * `impersonation_chained` -- an administrator takes on another and goes on from there.
-/
import Ceres.Library.Run
import Ceres.Library.Dict

namespace Ceres.Server.Auth

open Ceres.Library

set_option linter.unusedSectionVars false

variable {υ : Type} [DecidableEq υ]

/-! ## 1. Identities -/

inductive ApiError where
  | authenticationDisabled
  | notAuthenticated
  | notPermitted
  | notFound
  | badCredentials
  deriving DecidableEq

structure UserRecord (υ : Type) where
  id : υ
  admin : Bool
  disabled : Bool
  deriving DecidableEq

structure AuthSettings where
  duration : Nat
  allowImpersonate : Bool

/-- The claims of a token: the user, the expiry, and the impersonating administrator. -/
structure Token (υ : Type) where
  sub : υ
  exp : Nat
  imp : Option υ
  deriving DecidableEq

/-- A token that the server signed, and whether it was taken on: by impersonation, or by a refresh of one
    that was. The server keeps neither. -/
structure Minted (υ : Type) where
  token : Token υ
  taken : Bool
  deriving DecidableEq

structure Identity (υ : Type) where
  token : Token υ
  user : UserRecord υ
  impersonatedBy : Option υ

/-- A user's flags. -/
structure Flags where
  admin : Bool
  disabled : Bool
  deriving DecidableEq

structure State (υ : Type) where
  auth : Option AuthSettings
  users : Dict υ Flags
  now : Nat
  minted : List (Minted υ)

namespace State

/-- The host answers with the user's current flags. -/
def user (s : State υ) (id : υ) : Option (UserRecord υ) :=
  (s.users.get id).map fun flags => ⟨id, flags.admin, flags.disabled⟩

/-- The signature is the server's and the token is not expired. -/
def valid (s : State υ) (token : Token υ) : Bool :=
  s.minted.any (fun minted => decide (minted.token = token)) && decide (s.now ≤ token.exp)

/-- The claims of a token that is presented. -/
def parse (s : State υ) (token : Token υ) : Option (Token υ) := if s.valid token then some token else none

/-- The identity a request presents, anonymous on any failure. -/
def identity (s : State υ) (bearer : Option (Token υ)) : Option (Identity υ) := do
  let _ ← s.auth
  let token ← bearer
  let parsed ← s.parse token
  let user ← s.user parsed.sub
  some ⟨parsed, user, parsed.imp⟩

def mint (s : State υ) (settings : AuthSettings) (userId : υ) (impersonatedBy : Option υ) : Token υ :=
  ⟨userId, s.now + settings.duration, impersonatedBy⟩

def identityResponse (s : State υ) (settings : AuthSettings) (user : UserRecord υ)
    (impersonatedBy : Option υ) : Identity υ :=
  ⟨s.mint settings user.id impersonatedBy, user, impersonatedBy⟩

/-! ## 2. The requests -/

/-- The user whose username and password match, if one does; a disabled user logs in as well. -/
def login (s : State υ) (verified : Option υ) : Except ApiError (Identity υ) :=
  match s.auth with
  | none => .error .authenticationDisabled
  | some settings =>
    match verified.bind s.user with
    | some user => .ok (s.identityResponse settings user none)
    | none => .error .badCredentials

/-- A refreshed identity is the user's own, a marker never carries over. -/
def refresh (s : State υ) (bearer : Option (Token υ)) : Except ApiError (Identity υ) :=
  match s.auth with
  | none => .error .authenticationDisabled
  | some settings =>
    match s.identity bearer with
    | some identity => .ok (s.identityResponse settings identity.user none)
    | none => .error .notAuthenticated

def impersonate (s : State υ) (bearer : Option (Token υ)) (target : υ) : Except ApiError (Identity υ) :=
  match s.auth with
  | none => .error .authenticationDisabled
  | some settings =>
    if !settings.allowImpersonate then .error .notFound
    else
      match s.identity bearer with
      | none => .error .notAuthenticated
      | some identity =>
        if !identity.user.admin then .error .notPermitted
        else
          match s.user target with
          | some user => .ok (s.identityResponse settings user (some identity.user.id))
          | none => .error .notFound

/-- Whether every minting of the token was by impersonation, or a refresh after it. -/
def taken (s : State υ) (token : Token υ) : Bool :=
  s.minted.all fun minted => minted.taken || decide (minted.token ≠ token)

/-- The token of an answer is the caller's from then on. -/
def answered (s : State υ) (taken : Bool) : Except ApiError (Identity υ) → State υ
  | .ok identity => { s with minted := ⟨identity.token, taken⟩ :: s.minted }
  | .error _ => s

end State

inductive Action (υ : Type) where
  | login (verified : Option υ)
  | refresh (bearer : Option (Token υ))
  | impersonate (bearer : Option (Token υ)) (target : υ)
  /-- A user is created or changes flags. -/
  | setUser (id : υ) (flags : Flags)
  | removeUser (id : υ)
  | tick (seconds : Nat)

def step (s : State υ) : Action υ → Option (State υ)
  | .login verified => some (s.answered false (s.login verified))
  | .refresh bearer => some (s.answered (bearer.any s.taken) (s.refresh bearer))
  | .impersonate bearer target => some (s.answered true (s.impersonate bearer target))
  | .setUser id flags => some { s with users := s.users.set id flags }
  | .removeUser id => some { s with users := s.users.erase id }
  | .tick seconds => some { s with now := s.now + seconds }

/-! ## 3. Whose login it is -/

/-- The valid token of an enabled administrator, without a marker and not taken on. -/
structure Own (s : State υ) (token : Token υ) : Prop where
  valid : s.valid token = true
  unmarked : token.imp = none
  untaken : s.taken token = false
  enabled : ∃ user ∈ s.user token.sub, user.admin = true ∧ user.disabled = false

/-- An impersonation that is answered carries an administrator's own login. -/
def OwnLogin (s : State υ) : Action υ → Prop
  | .impersonate bearer target =>
      (∃ identity, s.impersonate bearer target = .ok identity) → ∃ token ∈ bearer, Own s token
  | _ => True

/-- The gates that `impersonate` has: the feature is on, the target is there, and the token is an
    administrator's. -/
structure Admitted (s : State υ) (token : Token υ) (target : υ) : Prop where
  allowed : ∃ settings ∈ s.auth, settings.allowImpersonate = true
  valid : s.valid token = true
  admin : ∃ user ∈ s.user token.sub, user.admin = true
  target : ∃ user, s.user target = some user

/-- What its gates leave open: that the token was not taken on and its user is not disabled. -/
def Guarded (s : State υ) : Action υ → Prop
  | .impersonate bearer target => ∀ token ∈ bearer, Admitted s token target →
      s.taken token = false ∧ ∀ user ∈ s.user token.sub, user.disabled = false
  | _ => True

/-- What was not taken on has no marker. -/
def Unmarked (s : State υ) : Prop := ∀ minted ∈ s.minted, minted.taken = false → minted.token.imp = none

variable {s : State υ} {bearer : Option (Token υ)}

theorem identity_eq_some {identity : Identity υ} : s.identity bearer = some identity ↔
      s.auth.isSome = true ∧ bearer = some identity.token ∧ s.valid identity.token = true ∧
        s.user identity.token.sub = some identity.user ∧ identity.impersonatedBy = identity.token.imp := by
  obtain ⟨token, user, by'⟩ := identity
  unfold State.identity
  cases hauth : s.auth with
  | none => simp
  | some settings =>
    cases bearer with
    | none => simp
    | some presented =>
      by_cases hvalid : s.valid presented = true
      · have hparse : s.parse presented = some presented := if_pos hvalid
        cases huser : s.user presented.sub with
        | none =>
          simp only [Option.bind_eq_bind, Option.bind_some, hparse, huser, Option.bind_none]
          constructor
          · exact fun h => absurd h (by simp)
          · intro h
            obtain ⟨_, heq, _, huser', _⟩ := h
            rw [← Option.some.inj heq, huser] at huser'
            exact absurd huser' (by simp)
        | some record =>
          simp only [Option.bind_eq_bind, Option.bind_some, hparse, huser, Option.some.injEq,
            Identity.mk.injEq, Option.isSome_some, true_and]
          constructor
          · intro h
            obtain ⟨rfl, rfl, rfl⟩ := h
            exact ⟨rfl, hvalid, huser, rfl⟩
          · intro h
            obtain ⟨rfl, _, huser', rfl⟩ := h
            rw [huser] at huser'
            exact ⟨rfl, Option.some.inj huser', rfl⟩
      · have hparse : s.parse presented = none := if_neg hvalid
        simp only [Option.bind_eq_bind, Option.bind_some, hparse, Option.bind_none]
        constructor
        · exact fun h => absurd h (by simp)
        · intro h
          obtain ⟨_, heq, hvalid', _⟩ := h
          rw [← Option.some.inj heq] at hvalid'
          exact absurd hvalid' hvalid

/-- **When `impersonate` answers.** -/
theorem impersonate_ok_iff {target : υ} : (∃ identity, s.impersonate bearer target = .ok identity) ↔
      ∃ token ∈ bearer, Admitted s token target := by
  unfold State.impersonate
  constructor
  · intro h
    obtain ⟨answer, h⟩ := h
    split at h
    · exact absurd h (by simp)
    · rename_i settings hauth
      split at h
      · exact absurd h (by simp)
      · rename_i hallowed
        split at h
        · exact absurd h (by simp)
        · rename_i identity hidentity
          split at h
          · exact absurd h (by simp)
          · rename_i hadmin
            split at h
            · rename_i user htarget
              obtain ⟨_, hbearer, hvalid, huser, _⟩ := identity_eq_some.mp hidentity
              exact ⟨identity.token, hbearer, ⟨settings, hauth, by simpa using hallowed⟩, hvalid,
                ⟨identity.user, huser, by simpa using hadmin⟩, ⟨user, htarget⟩⟩
            · exact absurd h (by simp)
  · intro h
    obtain ⟨token, hbearer, hadmitted⟩ := h
    obtain ⟨settings, hauth, hallowed⟩ := hadmitted.allowed
    obtain ⟨user, huser, hadmin⟩ := hadmitted.admin
    obtain ⟨record, htarget⟩ := hadmitted.target
    rw [Option.mem_def] at hauth huser hbearer
    have hidentity : s.identity bearer = some ⟨token, user, token.imp⟩ :=
      identity_eq_some.mpr ⟨by simp [hauth], hbearer, hadmitted.valid, huser, rfl⟩
    simp [hauth, hallowed, hidentity, hadmin, htarget]

/-- What an action leaves minted: at most one token more. -/
theorem answered_unmarked {taken : Bool} {answer : Except ApiError (Identity υ)} (h : Unmarked s)
    (htoken : ∀ identity, answer = .ok identity → taken = false → identity.token.imp = none) :
    Unmarked (s.answered taken answer) := by
  cases answer with
  | error error => exact h
  | ok identity =>
    intro minted hminted huntaken
    rcases List.mem_cons.mp hminted with rfl | hminted
    · exact htoken identity rfl huntaken
    · exact h minted hminted huntaken

/-- Only an impersonation sets the marker. -/
theorem login_imp {verified : Option υ} {identity : Identity υ}
    (h : s.login verified = .ok identity) : identity.token.imp = none := by
  unfold State.login at h
  split at h
  · exact absurd h (by simp)
  · split at h
    · rw [← Except.ok.inj h]
      rfl
    · exact absurd h (by simp)

theorem refresh_imp {identity : Identity υ}
    (h : s.refresh bearer = .ok identity) : identity.token.imp = none := by
  unfold State.refresh at h
  split at h
  · exact absurd h (by simp)
  · split at h
    · rw [← Except.ok.inj h]
      rfl
    · exact absurd h (by simp)

theorem step_unmarked (s : State υ) (a : Action υ) (s' : State υ) (h : Unmarked s)
    (hstep : step s a = some s') : Unmarked s' := by
  cases a with
  | login verified =>
    obtain rfl := Option.some.inj hstep
    exact answered_unmarked h fun _ hlogin _ => login_imp hlogin
  | refresh bearer =>
    obtain rfl := Option.some.inj hstep
    exact answered_unmarked h fun _ hrefresh _ => refresh_imp hrefresh
  | impersonate bearer target =>
    obtain rfl := Option.some.inj hstep
    exact answered_unmarked h fun _ _ htaken => absurd htaken (by simp)
  | setUser id flags =>
    obtain rfl := Option.some.inj hstep
    exact h
  | removeUser id =>
    obtain rfl := Option.some.inj hstep
    exact h
  | tick seconds =>
    obtain rfl := Option.some.inj hstep
    exact h

theorem unmarked_of_untaken {token : Token υ} (h : Unmarked s)
    (huntaken : s.taken token = false) : token.imp = none := by
  unfold State.taken at huntaken
  rw [List.all_eq_false] at huntaken
  obtain ⟨minted, hminted, hnot⟩ := huntaken
  simp only [Bool.or_eq_true, decide_eq_true_eq, not_or, ne_eq, not_not, Bool.not_eq_true] at hnot
  rw [← hnot.2]
  exact h minted hminted hnot.1

theorem ownLogin_iff_guarded (s : State υ) (a : Action υ) (h : Unmarked s) : OwnLogin s a ↔ Guarded s a := by
  cases a with
  | impersonate bearer target =>
    have hanswers := @impersonate_ok_iff _ _ s bearer target
    constructor
    · intro hown token htoken hadmitted
      obtain ⟨other, hother, howns⟩ := hown (hanswers.mpr ⟨token, htoken, hadmitted⟩)
      obtain rfl : token = other := Option.mem_unique htoken hother
      obtain ⟨user, huser, _, henabled⟩ := howns.enabled
      refine ⟨howns.untaken, fun user' huser' => ?_⟩
      rw [Option.mem_unique huser' huser]
      exact henabled
    · intro hguarded hanswered
      obtain ⟨token, htoken, hadmitted⟩ := hanswers.mp hanswered
      obtain ⟨huntaken, henabled⟩ := hguarded token htoken hadmitted
      obtain ⟨user, huser, hadmin⟩ := hadmitted.admin
      exact ⟨token, htoken, hadmitted.valid, unmarked_of_untaken h huntaken, huntaken,
        ⟨user, huser, hadmin, henabled user huser⟩⟩
  | _ => exact Iff.rfl

/-- **Impersonation takes an administrator's own login**, along every run of requests and changes of
    users, exactly when no token that was taken on, and none of a disabled user, gets past the gates of
    `impersonate`. -/
theorem impersonations_own_login (auth : Option AuthSettings) (users : Dict υ Flags) (now : Nat)
    (actions : List (Action υ)) :
    Along step OwnLogin ⟨auth, users, now, []⟩ actions ↔
      Along step Guarded ⟨auth, users, now, []⟩ actions := by
  refine along_iff_of_inv step_unmarked ownLogin_iff_guarded actions _ ?_
  exact fun minted hminted => absurd hminted List.not_mem_nil

/-- **Chained.** The first administrator takes on the second and, as the second, the third. -/
theorem impersonation_chained :
    ¬ ∀ (auth : Option AuthSettings) (users : Dict Nat Flags) (now : Nat) (actions : List (Action Nat)),
      Along step OwnLogin ⟨auth, users, now, []⟩ actions := by
  intro h
  have hrun := h (some ⟨30, true⟩) [(1, ⟨true, false⟩), (2, ⟨true, false⟩), (3, ⟨false, false⟩)] 0
    [.login (some 1), .impersonate (some ⟨1, 30, none⟩) 2, .impersonate (some ⟨2, 30, some 1⟩) 3]
  have hown := ((hrun.2 _ rfl).2 _ rfl).1 ⟨_, rfl⟩
  obtain ⟨token, htoken, hown⟩ := hown
  rw [← Option.some.inj htoken] at hown
  exact absurd hown.unmarked (by simp)

end Ceres.Server.Auth
