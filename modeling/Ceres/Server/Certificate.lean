/-
  File:      Ceres/Server/Certificate.lean
  Subject:   THE MANAGED CERTIFICATE (`rust/ceres-server/src/tls/managed.rs`: `Issuance::ensure`, `Authority`,
             `Leaf`, `write_pair`; `rust/ceres-server/src/tls.rs`: `read_certificates`, `read_private_key`).

  Four files, an authority's certificate and key and the server's. `ensure` reads them once, and what it
  writes is a list of steps on the file system: a process that stops has taken the first of them. What a
  file holds, a certificate and a key are the crates' own; `Backend` are the functions called of them.

  * `Authority.read`, `Leaf.judge`, `ensure` -- the code, with its errors;
  * `Lawful` -- what the crates document: what is written is read back, and a signature is verified;
  * `authority_take`, `half_take` -- the authority's two files after a part of the steps;
  * `ensure_recovers` -- with a whole authority or none, issuing succeeds and is then done;
  * **`recovers_iff`** -- after any stops, exactly if none parted a new authority's two files;
  * `stopped_between_renames` -- the stop that does.
-/
import Mathlib
import Ceres.Library.Wildcard

namespace Ceres.Server.Certificate

open Ceres.Library

/-! ## 1. Names -/

/-- An address of four bytes or of sixteen. -/
structure IpAddr where
  bytes : List UInt8
  size : bytes.length = 4 ∨ bytes.length = 16
  deriving DecidableEq

/-- A name a certificate vouches for. -/
inductive SubjectName where
  | dns (name : Text)
  | ip (address : IpAddr)
  deriving DecidableEq

namespace SubjectName

def lowered : SubjectName → SubjectName
  | .dns name => .dns (name.map Char.toLower)
  | .ip address => .ip address

def uniqueFrom : List SubjectName → List SubjectName → List SubjectName
  | unique, [] => unique
  | unique, name :: rest =>
    if lowered name ∈ unique then uniqueFrom unique rest else uniqueFrom (unique ++ [lowered name]) rest

/-- The first of each name in order, DNS names in lower case. -/
def unique (names : List SubjectName) : List SubjectName := uniqueFrom [] names

theorem lowered_lowered (name : SubjectName) : lowered (lowered name) = lowered name := by
  cases name with
  | ip address => rfl
  | dns name =>
    rw [lowered, lowered, List.map_map]
    refine congrArg dns (List.map_congr_left fun c _ => ?_)
    exact Char.toLower_toLower_eq_toLower c

theorem mem_uniqueFrom {name : SubjectName} : ∀ {names unique : List SubjectName},
    name ∈ uniqueFrom unique names ↔ name ∈ unique ∨ ∃ other ∈ names, lowered other = name
  | [], unique => by simp [uniqueFrom]
  | first :: rest, unique => by
      rw [uniqueFrom]
      split
      · rename_i hmem
        rw [mem_uniqueFrom]
        constructor
        · rintro (h | ⟨other, hother, h⟩)
          · exact Or.inl h
          · exact Or.inr ⟨other, List.mem_cons_of_mem _ hother, h⟩
        · rintro (h | ⟨other, hother, h⟩)
          · exact Or.inl h
          · rcases List.mem_cons.mp hother with rfl | hother
            · exact Or.inl (h ▸ hmem)
            · exact Or.inr ⟨other, hother, h⟩
      · rw [mem_uniqueFrom, List.mem_append, List.mem_singleton]
        constructor
        · rintro ((h | h) | ⟨other, hother, h⟩)
          · exact Or.inl h
          · exact Or.inr ⟨first, List.mem_cons_self, h.symm⟩
          · exact Or.inr ⟨other, List.mem_cons_of_mem _ hother, h⟩
        · rintro (h | ⟨other, hother, h⟩)
          · exact Or.inl (Or.inl h)
          · rcases List.mem_cons.mp hother with rfl | hother
            · exact Or.inl (Or.inr h.symm)
            · exact Or.inr ⟨other, hother, h⟩

theorem mem_unique_unique {names : List SubjectName} {name : SubjectName} (h : name ∈ unique names) :
    name ∈ unique (unique names) := by
  have hlowered : lowered name = name := by
    obtain h | ⟨other, -, rfl⟩ := mem_uniqueFrom.mp h
    · cases h
    · exact lowered_lowered other
  exact mem_uniqueFrom.mpr (Or.inr ⟨name, h, hlowered⟩)

end SubjectName

/-- An entry of a certificate's subject alternative names. -/
inductive GeneralName where
  | dns (name : Text)
  | ip (bytes : List UInt8)
  | other

/-! ## 2. The crates -/

/-- What `x509_parser` reads of a certificate; a time is in seconds. `keyUsage` says whether the usage
    includes signing certificates, `none` without the extension. -/
structure X509 (ν π : Type) where
  subject : ν
  issuer : ν
  publicKey : π
  notBefore : Int
  notAfter : Int
  isCa : Bool
  keyUsage : Except String (Option Bool)
  subjectAlternativeName : Option (List GeneralName)

structure AuthorityParams where
  commonName : String
  notBefore : Int
  notAfter : Int

structure LeafParams where
  subjectAltNames : List SubjectName
  notBefore : Int
  notAfter : Int

inductive KeyError where
  | inconsistentKeys
  | other (text : String)

/-- The functions of `rustls`, `rustls_pemfile`, `x509_parser`, `rcgen`, `pkcs8` and `time` that are called:
    over what a file holds, a DER certificate, a private key, a raw name and a public key. -/
structure Backend (ω δ κ ν π : Type) where
  certs : ω → Except String (List δ)
  privateKey : ω → Except String (Option κ)
  isUtf8 : ω → Bool
  /-- The text contains `ENCRYPTED PRIVATE KEY`. -/
  isEncrypted : ω → Bool
  decrypt : ω → String → Except String κ
  certifiedKey : List δ → κ → Except KeyError Unit
  parse : δ → Except String (X509 ν π)
  verify : δ → π → Bool
  selfSigned : AuthorityParams → κ → Except String δ
  /-- `Issuer::from_ca_cert_der` and `signed_by`. -/
  signedBy : LeafParams → κ → δ → κ → Except String δ
  certificatePem : List δ → ω
  keyPem : κ → ω
  fingerprint : δ → String
  date : Int → String

/-! ## 3. Files -/

/-- The four files. -/
inductive Slot where
  | authorityCertificate
  | authorityKey
  | certificate
  | key
  deriving DecidableEq

/-- What stands at each path, and what was staged beside it and not yet renamed, the newest first. -/
structure Disk (ω : Type) where
  file : Slot → Option ω
  staged : Slot → List ω

inductive FsStep (ω : Type) where
  | createParent (slot : Slot)
  | stage (slot : Slot) (contents : ω)
  | rename (slot : Slot)

section
variable {ω δ κ ν π : Type} [DecidableEq ν]

def FsStep.apply (disk : Disk ω) : FsStep ω → Disk ω
  | .createParent _ => disk
  | .stage slot contents => { disk with staged := Function.update disk.staged slot (contents :: disk.staged slot) }
  | .rename slot =>
    match disk.staged slot with
    | [] => disk
    | contents :: rest =>
      { file := Function.update disk.file slot (some contents)
        staged := Function.update disk.staged slot rest }

def Disk.apply (disk : Disk ω) (steps : List (FsStep ω)) : Disk ω := steps.foldl FsStep.apply disk

/-- Write a certificate and its key, each beside its path and renamed over it, the key first. -/
def writePair (certificateSlot : Slot) (certificate : ω) (keySlot : Slot) (key : ω) : List (FsStep ω) :=
  [.createParent certificateSlot, .createParent keySlot, .stage certificateSlot certificate, .stage keySlot key,
    .rename keySlot, .rename certificateSlot]

/-! ## 4. The code -/

inductive Error where
  | authorityMissing (path : String)
  | authorityIncomplete (present missing : String)
  | authorityUnusable (path reason : String)
  | malformed (path reason : String)
  | unreadable (path reason : String)
  | empty (path expected : String)
  | notPem (path expected : String)
  | decrypt (reason : String)
  | issue (reason : String)
  /-- A time that a certificate cannot state: the crates panic. -/
  | outOfRange (time : Int)
  deriving DecidableEq

inductive Renewal where
  | missing
  | unparsable (reason : String)
  | foreignIssuer
  | notYetValid
  | expiring (expires : Int)
  | missingNames (names : List SubjectName)
  | forced
  deriving DecidableEq

/-- How managed certificates are issued; `path` says where the four files stand. -/
structure Issuance where
  path : Slot → String
  keyPassword : Option String
  supplied : Bool
  days : Nat

structure Managed where
  authority : String
  createdAuthority : Bool
  issued : Option Renewal
  names : List SubjectName
  expires : Int
  fingerprint : String
  authorityWarning : Option String

inductive Authority (δ κ : Type) where
  | present (chain : List δ) (key : κ) (expires : Int)
  | absent

inductive Leaf (δ : Type) where
  | current (certificate : δ) (notAfter : Int)
  | due (renewal : Renewal)

/-- Seconds. -/
def HOUR : Int := 3600

def DAY : Int := 24 * HOUR

/-- How close to expiry a certificate issued for `days` renews, in seconds. -/
def renewalWindow (days : Nat) : Int := min (days * DAY / 3) (30 * DAY)

def AUTHORITY_WARNING : Int := 30 * DAY

def AUTHORITY_LIFETIME : Int := 3650 * DAY

def BACKDATE : Int := HOUR

/-- Nanoseconds of a second: `now` is in nanoseconds. -/
def NANOS : Int := 1000000000

/-- The first and the last second of the years that a certificate can state, 0 to 9999. -/
def MIN_TIME : Int := -62167219200

def MAX_TIME : Int := 253402300799

def checkedTime (time : Int) : Except Error Int :=
  if MIN_TIME ≤ time ∧ time ≤ MAX_TIME then .ok time else .error (.outOfRange time)

variable (backend : Backend ω δ κ ν π) (issuance : Issuance)

/-- `read_certificates` of a path where `file` stands. -/
def readCertificates (path : String) : Option ω → Except Error (List δ)
  | none => .error (.unreadable path "entity not found")
  | some text =>
    match backend.certs text with
    | .error reason => .error (.unreadable path reason)
    | .ok [] => .error (.empty path "certificate")
    | .ok (first :: rest) => .ok (first :: rest)

/-- `read_private_key` -/
def readPrivateKey (path : String) (password : Option String) : Option ω → Except Error κ
  | none => .error (.unreadable path "entity not found")
  | some text =>
    if backend.isUtf8 text = false then .error (.notPem path "private key")
    else if backend.isEncrypted text = true then
      match password with
      | none => .error (.decrypt "the key is encrypted and no key_password is configured")
      | some password => (backend.decrypt text password).mapError .decrypt
    else
      match backend.privateKey text with
      | .ok (some key) => .ok key
      | _ => .error (.empty path "private key")

/-- Check that the authority may sign and that its key belongs to it, answering when it expires. -/
def validate (chain : List δ) (key : κ) : Except Error Int :=
  let path := issuance.path .authorityCertificate
  match chain with
  | [] => .error (.empty path "certificate")
  | first :: _ =>
    match backend.parse first with
    | .error reason => .error (.malformed path reason)
    | .ok certificate =>
      if certificate.isCa = false then .error (.authorityUnusable path "It is not a certificate authority.")
      else
        match certificate.keyUsage with
        | .ok (some false) =>
          .error (.authorityUnusable path "Its key usage does not include signing certificates.")
        | .error reason => .error (.malformed path reason)
        | .ok _ =>
          match backend.certifiedKey chain key with
          | .ok _ => .ok certificate.notAfter
          | .error .inconsistentKeys =>
            .error (.authorityUnusable path s!"The key {issuance.path .authorityKey} does not belong to it.")
          | .error (.other reason) =>
            .error (.authorityUnusable path s!"The key {issuance.path .authorityKey} cannot be used. {reason}")

/-- The authority's two files as they stand, once both are there. -/
def readPresent (disk : Disk ω) : Except Error (Authority δ κ) := do
  let chain ← readCertificates backend (issuance.path .authorityCertificate) (disk.file .authorityCertificate)
  let key ← readPrivateKey backend (issuance.path .authorityKey) issuance.keyPassword (disk.file .authorityKey)
  let expires ← validate backend issuance chain key
  return .present chain key expires

/-- A supplied authority has to exist, a default one is absent when neither of its files exists. -/
def Authority.read (disk : Disk ω) : Except Error (Authority δ κ) :=
  match disk.file .authorityCertificate, disk.file .authorityKey with
  | some _, some _ => readPresent backend issuance disk
  | none, none =>
    if issuance.supplied then .error (.authorityMissing (issuance.path .authorityCertificate)) else .ok .absent
  | some _, none =>
    if issuance.supplied then .error (.authorityMissing (issuance.path .authorityKey))
    else .error (.authorityIncomplete (issuance.path .authorityCertificate) (issuance.path .authorityKey))
  | none, some _ =>
    if issuance.supplied then .error (.authorityMissing (issuance.path .authorityCertificate))
    else .error (.authorityIncomplete (issuance.path .authorityKey) (issuance.path .authorityCertificate))

/-- The warning an authority close to expiry or past it draws. -/
def warning (authority : Authority δ κ) (now : Int) : Option String :=
  match authority with
  | .absent => none
  | .present _ _ expires =>
    if AUTHORITY_WARNING * NANOS < expires * NANOS - now then none
    else
      let path := issuance.path .authorityCertificate
      let state := if expires * NANOS ≤ now then
          s!"The certificate authority {path} expired on {backend.date expires}, so clients no longer trust " ++
            "the certificates it signs."
        else s!"The certificate authority {path} expires on {backend.date expires}."
      let remedy := if issuance.supplied then "Replace it at the paths `auto.ca` names"
        else s!"Remove {path} and {issuance.path .authorityKey} for Ceres to create a new one"
      some s!"{state} Ceres never renews an authority. {remedy}, and trust the new one on each client."

/-- Whether an authority issued and signed a certificate. -/
def signedByAuthority (leaf : δ) (issuer : ν) (authority : δ) : Bool :=
  match backend.parse authority with
  | .error _ => false
  | .ok authority => issuer = authority.subject && backend.verify leaf authority.publicKey

def GeneralName.subject : GeneralName → Option SubjectName
  | .dns name => some (.dns name)
  | .ip bytes => if h : bytes.length = 4 ∨ bytes.length = 16 then some (.ip ⟨bytes, h⟩) else none
  | .other => none

def carriedNames (certificate : X509 ν π) : List SubjectName :=
  match certificate.subjectAlternativeName with
  | none => []
  | some names => SubjectName.unique (names.filterMap GeneralName.subject)

/-- The end of `judge`, over a certificate that its key belongs to. -/
def judgeParsed (presented : δ) (leaf : X509 ν π) (authority : Authority δ κ) (names : List SubjectName) (now : Int) :
    Leaf δ :=
  match authority with
  | .absent => .due .foreignIssuer
  | .present [] _ _ => .due .foreignIssuer
  | .present (signer :: _) _ _ =>
    if signedByAuthority backend presented leaf.issuer signer = false then .due .foreignIssuer
    else if now / NANOS < leaf.notBefore then .due .notYetValid
    else if leaf.notAfter * NANOS - now < renewalWindow issuance.days * NANOS then .due (.expiring leaf.notAfter)
    else
      match names.filter fun name => !(carriedNames leaf).contains name with
      | [] => .current presented leaf.notAfter
      | missing => .due (.missingNames missing)

/-- The certificate at the configured paths, or why it is due to be issued. -/
def Leaf.judge (disk : Disk ω) (authority : Authority δ κ) (names : List SubjectName) (now : Int) : Leaf δ :=
  match disk.file .certificate, disk.file .key with
  | some chain, some key =>
    match backend.certs chain with
    | .error reason => .due (.unparsable reason)
    | .ok [] => .due (.unparsable "it holds no PEM certificate")
    | .ok (presented :: rest) =>
      match backend.privateKey key with
      | .error reason => .due (.unparsable reason)
      | .ok none => .due (.unparsable "its key file holds no PEM private key")
      | .ok (some key) =>
        match backend.certifiedKey (presented :: rest) key with
        | .error .inconsistentKeys => .due (.unparsable "keys may not be consistent")
        | .error (.other reason) => .due (.unparsable reason)
        | .ok _ =>
          match backend.parse presented with
          | .error reason => .due (.unparsable reason)
          | .ok leaf => judgeParsed backend issuance presented leaf authority names now
  | _, _ => .due .missing

/-- One call of `ensure`: what it is asked for, and the keys it generates. -/
structure Request (κ : Type) where
  names : List SubjectName
  /-- Nanoseconds since the epoch. -/
  now : Int
  force : Bool
  hostname : Option String
  authorityKey : κ
  leafKey : κ

/-- `san`, which refuses a DNS name that is not ASCII. -/
def checkedNames : List SubjectName → Except Error Unit
  | [] => .ok ()
  | .ip _ :: rest => checkedNames rest
  | .dns name :: rest =>
    if name.all fun c => c.toNat < 128 then checkedNames rest
    else .error (.issue s!"{String.ofList name} cannot be a DNS name.")

def createAuthority (request : Request κ) : Except Error (List (FsStep ω) × Authority δ κ) := do
  let name := match request.hostname with
    | some host => s!"Ceres authority for {host}"
    | none => "Ceres authority"
  let notBefore ← checkedTime (request.now / NANOS - BACKDATE)
  let notAfter ← checkedTime (notBefore + AUTHORITY_LIFETIME - 1)
  let certificate ← (backend.selfSigned ⟨name, notBefore, notAfter⟩ request.authorityKey).mapError fun error =>
    .issue s!"cannot sign the authority. {error}"
  return (writePair .authorityCertificate (backend.certificatePem [certificate]) .authorityKey
    (backend.keyPem request.authorityKey), .present [certificate] request.authorityKey notAfter)

/-- Sign a certificate with an authority that is there, and write it. -/
def signLeaf (request : Request κ) (chain : List δ) (key : κ) : Except Error (List (FsStep ω) × δ × Int) := do
  let notBefore ← checkedTime (request.now / NANOS - BACKDATE)
  -- the last second counts as valid, so `days` covers the period inclusively
  let notAfter ← checkedTime (notBefore + issuance.days * DAY - 1)
  checkedNames request.names
  match chain with
  | [] => .error (.issue "no authority certificate")
  | signer :: _ =>
    let certificate ← (backend.signedBy ⟨request.names, notBefore, notAfter⟩ request.leafKey signer key).mapError
      Error.issue
    return (writePair .certificate (backend.certificatePem (certificate :: chain)) .key
      (backend.keyPem request.leafKey), certificate, notAfter)

/-- The certificate once signed, after the steps already taken. -/
def issueFrom (request : Request κ) (issued : Renewal) (created : Bool) (steps : List (FsStep ω))
    (authority : Authority δ κ) : List (FsStep ω) × Except Error Managed :=
  match authority with
  | .absent => (steps, .error (.issue "the authority exists once created"))
  | .present chain key expires =>
    match signLeaf backend issuance request chain key with
    | .error error => (steps, .error error)
    | .ok (written, certificate, notAfter) =>
      (steps ++ written, .ok
        { authority := issuance.path .authorityCertificate
          createdAuthority := created
          issued := some issued
          names := request.names
          expires := notAfter
          fingerprint := backend.fingerprint certificate
          authorityWarning :=
            warning backend issuance (.present chain key expires) (request.now / NANOS * NANOS) })

def issue (request : Request κ) (issued : Renewal) (authority : Authority δ κ) :
    List (FsStep ω) × Except Error Managed :=
  match authority with
  | .present chain key expires => issueFrom backend issuance request issued false [] (.present chain key expires)
  | .absent =>
    match createAuthority backend request with
    | .error error => ([], .error error)
    | .ok (steps, created) => issueFrom backend issuance request issued true steps created

/-- `Issuance::ensure`: the steps it takes, and what it returns. -/
def ensure (disk : Disk ω) (request : Request κ) : List (FsStep ω) × Except Error Managed :=
  match Authority.read backend issuance disk with
  | .error error => ([], .error error)
  | .ok authority =>
    match Leaf.judge backend issuance disk authority request.names request.now, request.force with
    | .current presented notAfter, false =>
      match backend.parse presented with
      | .error reason => ([], .error (.malformed (issuance.path .certificate) reason))
      | .ok parsed =>
        ([], .ok
          { authority := issuance.path .authorityCertificate
            createdAuthority := false
            issued := none
            names := carriedNames parsed
            expires := notAfter
            fingerprint := backend.fingerprint presented
            authorityWarning := warning backend issuance authority request.now })
    | .current _ _, true => issue backend issuance request .forced authority
    | .due renewal, _ => issue backend issuance request renewal authority

end

/-! ## 5. What the crates document -/

section
variable {ω δ κ ν π : Type} [DecidableEq ν] (backend : Backend ω δ κ ν π)

/-- `rcgen` takes the pair as an issuer. -/
def Signs (signer : δ) (key : κ) : Prop :=
  ∀ (params : LeafParams) (fresh : κ), ∃ certificate, backend.signedBy params fresh signer key = .ok certificate

def SubjectName.general : SubjectName → GeneralName
  | .dns name => .dns name
  | .ip address => .ip address.bytes

/-- PEM is read back as written, and a certificate that `rcgen` makes says what it was asked to, belongs to
    its key and is verified with its issuer's public key. -/
structure Lawful : Prop where
  certs_pem : ∀ first rest, backend.certs (backend.certificatePem (first :: rest)) = .ok (first :: rest)
  privateKey_pem : ∀ key, backend.privateKey (backend.keyPem key) = .ok (some key)
  isUtf8_pem : ∀ key, backend.isUtf8 (backend.keyPem key) = true
  isEncrypted_pem : ∀ key, backend.isEncrypted (backend.keyPem key) = false
  selfSigned : ∀ params key, ∃ certificate parsed, backend.selfSigned params key = .ok certificate ∧
    backend.parse certificate = .ok parsed ∧ parsed.isCa = true ∧ parsed.keyUsage = .ok (some true) ∧
    parsed.notAfter = params.notAfter ∧ backend.certifiedKey [certificate] key = .ok () ∧
    Signs backend certificate key
  signedBy : ∀ params fresh signer rest key certificate authority,
    backend.signedBy params fresh signer key = .ok certificate →
    backend.certifiedKey (signer :: rest) key = .ok () → backend.parse signer = .ok authority →
    (∀ chain, backend.certifiedKey (certificate :: chain) fresh = .ok ()) ∧
    backend.verify certificate authority.publicKey = true ∧
    ∃ parsed, backend.parse certificate = .ok parsed ∧ parsed.issuer = authority.subject ∧
      parsed.notBefore = params.notBefore ∧ parsed.notAfter = params.notAfter ∧
      parsed.subjectAlternativeName = some (params.subjectAltNames.map SubjectName.general)

def Usable (chain : List δ) (key : κ) : Prop :=
  ∃ signer rest authority, chain = signer :: rest ∧ backend.parse signer = .ok authority ∧
    backend.certifiedKey (signer :: rest) key = .ok () ∧ Signs backend signer key

end

/-! ## 6. Steps on the files -/

section
variable {ω : Type}

def FsStep.slot : FsStep ω → Slot
  | .createParent slot => slot
  | .stage slot _ => slot
  | .rename slot => slot

theorem apply_append (disk : Disk ω) (steps more : List (FsStep ω)) :
    disk.apply (steps ++ more) = (disk.apply steps).apply more := List.foldl_append

theorem apply_file_of_ne (disk : Disk ω) (step : FsStep ω) {slot : Slot} (h : step.slot ≠ slot) :
    (step.apply disk).file slot = disk.file slot := by
  cases step with
  | createParent other => rfl
  | stage other contents => rfl
  | rename other =>
    cases hstaged : disk.staged other with
    | nil => simp only [FsStep.apply, hstaged]
    | cons contents rest =>
      simp only [FsStep.apply, hstaged]
      exact Function.update_of_ne (Ne.symm h) _ _

theorem apply_frame {slot : Slot} : ∀ (steps : List (FsStep ω)) (disk : Disk ω),
    (∀ step ∈ steps, step.slot ≠ slot) → (disk.apply steps).file slot = disk.file slot
  | [], _, _ => rfl
  | step :: rest, disk, h => by
      have hrest := apply_frame rest (step.apply disk) fun other hother => h other (List.mem_cons_of_mem _ hother)
      exact hrest.trans (apply_file_of_ne disk step (h step List.mem_cons_self))

variable {certificateSlot keySlot : Slot}

theorem writePair_slot {certificate key : ω} {step : FsStep ω}
    (h : step ∈ writePair certificateSlot certificate keySlot key) :
    step.slot = certificateSlot ∨ step.slot = keySlot := by
  simp only [writePair, List.mem_cons, List.not_mem_nil, or_false] at h
  rcases h with rfl | rfl | rfl | rfl | rfl | rfl
  · exact Or.inl rfl
  · exact Or.inr rfl
  · exact Or.inl rfl
  · exact Or.inr rfl
  · exact Or.inr rfl
  · exact Or.inl rfl

/-- Before the first rename every file is as it was. -/
theorem writePair_early (certificate key : ω) (disk : Disk ω) {n : Nat} (h : n ≤ 4) :
    (disk.apply ((writePair certificateSlot certificate keySlot key).take n)).file = disk.file := by
  have hcases : n = 0 ∨ n = 1 ∨ n = 2 ∨ n = 3 ∨ n = 4 := by omega
  rcases hcases with rfl | rfl | rfl | rfl | rfl <;> rfl

/-- The key is in its place once its rename is done. -/
theorem writePair_half (certificate key : ω) (disk : Disk ω) :
    (disk.apply ((writePair certificateSlot certificate keySlot key).take 5)).file =
      Function.update disk.file keySlot (some key) := by
  simp [Disk.apply, writePair, FsStep.apply]

theorem writePair_file (hne : certificateSlot ≠ keySlot) (certificate key : ω)
    (disk : Disk ω) : (disk.apply (writePair certificateSlot certificate keySlot key)).file =
      Function.update (Function.update disk.file keySlot (some key)) certificateSlot (some certificate) := by
  simp only [Disk.apply, writePair, FsStep.apply, List.foldl_cons, List.foldl_nil, Function.update_self,
    Function.update_of_ne hne]

end

/-! ## 7. One call -/

section
variable {ω δ κ ν π : Type} [DecidableEq ν] (backend : Backend ω δ κ ν π) (issuance : Issuance)

/-- What the callers ask for: names made unique, which a certificate can hold, and a time from which it can
    state the periods. -/
structure Request.Asked (request : Request κ) : Prop where
  named : ∃ names, request.names = SubjectName.unique names
  ascii : checkedNames request.names = .ok ()
  start : MIN_TIME ≤ request.now / NANOS - BACKDATE
  stop : request.now / NANOS - BACKDATE + max (issuance.days * DAY) AUTHORITY_LIFETIME - 1 ≤ MAX_TIME

def NoAuthority (disk : Disk ω) : Prop := disk.file .authorityCertificate = none ∧ disk.file .authorityKey = none

/-- An authority that is read, and can sign. -/
def Healthy (disk : Disk ω) : Prop :=
  ∃ chain key expires, Authority.read backend issuance disk = .ok (.present chain key expires) ∧
    Usable backend chain key

/-- The served certificate belongs to its key, was signed by the authority on disk, and names every name. -/
structure Settled (disk : Disk ω) (names : List SubjectName) : Prop where
  belongs : ∃ certificate keyText presented rest key leaf, disk.file .certificate = some certificate ∧
    disk.file .key = some keyText ∧ backend.certs certificate = .ok (presented :: rest) ∧
    backend.privateKey keyText = .ok (some key) ∧ backend.certifiedKey (presented :: rest) key = .ok () ∧
    backend.parse presented = .ok leaf ∧
    (∃ authority signer others, disk.file .authorityCertificate = some authority ∧
      backend.certs authority = .ok (signer :: others) ∧
      signedByAuthority backend presented leaf.issuer signer = true) ∧
    ∀ name ∈ names, name ∈ carriedNames leaf

/-- The disk after a call that runs to its end. -/
def finished (disk : Disk ω) (request : Request κ) : Disk ω := disk.apply (ensure backend issuance disk request).1

/-- A call succeeds and leaves a certificate as it should be, and another at the same time, whatever keys it
    could generate, then issues nothing. -/
def Recovers (disk : Disk ω) (request : Request κ) : Prop :=
  (∃ managed, (ensure backend issuance disk request).2 = .ok managed) ∧
  Settled backend (finished backend issuance disk request) request.names ∧
  ∀ again : Request κ, again.names = request.names → again.now = request.now → again.force = false →
    ∃ managed, ensure backend issuance (finished backend issuance disk request) again = ([], .ok managed) ∧
      managed.issued = none

variable {backend issuance}

omit [DecidableEq ν] in
theorem read_congr {disk other : Disk ω} (hcertificate : other.file .authorityCertificate = disk.file .authorityCertificate)
    (hkey : other.file .authorityKey = disk.file .authorityKey) :
    Authority.read backend issuance other = Authority.read backend issuance disk := by
  unfold Authority.read readPresent
  rw [hcertificate, hkey]

variable {disk : Disk ω}

omit [DecidableEq ν] in
theorem read_absent (hsupplied : issuance.supplied = false) (h : NoAuthority disk) :
    Authority.read backend issuance disk = .ok .absent := by
  unfold Authority.read
  rw [h.1, h.2, hsupplied]
  rfl

variable {chain : List δ} {key : κ}

omit [DecidableEq ν] in
theorem read_present {expires : Int}
    (h : Authority.read backend issuance disk = .ok (.present chain key expires)) :
    ∃ authority signer rest, disk.file .authorityCertificate = some authority ∧
      backend.certs authority = .ok (signer :: rest) ∧ chain = signer :: rest := by
  unfold Authority.read at h
  split at h
  · rename_i authority keyText hcertificate hkey
    unfold readPresent at h
    rw [hcertificate] at h
    unfold readCertificates at h
    simp only at h
    split at h
    · cases h
    · cases h
    · rename_i signer rest hcerts
      refine ⟨authority, signer, rest, hcertificate, hcerts, ?_⟩
      simp only [bind, Except.bind] at h
      split at h
      · cases h
      · split at h
        · cases h
        · cases h
          rfl
  · split at h <;> cases h
  · split at h <;> cases h
  · split at h <;> cases h

theorem checkedTime_ok {time : Int} (hlow : MIN_TIME ≤ time) (hhigh : time ≤ MAX_TIME) :
    checkedTime time = .ok time := by
  rw [checkedTime, if_pos ⟨hlow, hhigh⟩]

theorem day_eq : DAY = 86400 := rfl

theorem lifetime_eq : AUTHORITY_LIFETIME = 315360000 := rfl

variable {request : Request κ}

omit [DecidableEq ν] in
/-- **A new authority** is written as a pair and can sign. -/
theorem createAuthority_spec (hlawful : Lawful backend) (hasked : request.Asked issuance) :
    ∃ certificate expires, createAuthority backend request = .ok (writePair .authorityCertificate
        (backend.certificatePem [certificate]) .authorityKey (backend.keyPem request.authorityKey),
        .present [certificate] request.authorityKey expires) ∧
      Usable backend [certificate] request.authorityKey ∧
      ∀ disk : Disk ω, disk.file .authorityCertificate = some (backend.certificatePem [certificate]) →
        disk.file .authorityKey = some (backend.keyPem request.authorityKey) →
        Authority.read backend issuance disk = .ok (.present [certificate] request.authorityKey expires) := by
  have hstop := hasked.stop
  have hstart := hasked.start
  have hmax := le_max_right ((issuance.days : Int) * DAY) AUTHORITY_LIFETIME
  have hlifetime := lifetime_eq
  obtain ⟨certificate, parsed, hself, hparse, hca, husage, hexpires, hfits, hsigns⟩ := hlawful.selfSigned
    ⟨match request.hostname with
      | some host => s!"Ceres authority for {host}"
      | none => "Ceres authority", request.now / NANOS - BACKDATE,
      request.now / NANOS - BACKDATE + AUTHORITY_LIFETIME - 1⟩ request.authorityKey
  refine ⟨certificate, request.now / NANOS - BACKDATE + AUTHORITY_LIFETIME - 1, ?_,
    ⟨certificate, [], parsed, rfl, hparse, hfits, hsigns⟩, fun disk hcertificate hkey => ?_⟩
  · unfold createAuthority
    rw [checkedTime_ok hstart (by omega)]
    simp only [bind, Except.bind]
    rw [checkedTime_ok (by omega) (by omega)]
    simp only [hself]
    rfl
  · have hvalid : validate backend issuance [certificate] request.authorityKey =
        .ok (request.now / NANOS - BACKDATE + AUTHORITY_LIFETIME - 1) := by
      unfold validate
      simp only [hparse, hca, husage, hfits, hexpires, Bool.true_eq_false, if_false]
    have hchain : readCertificates backend (issuance.path .authorityCertificate)
        (some (backend.certificatePem [certificate])) = .ok [certificate] := by
      unfold readCertificates
      simp only [hlawful.certs_pem]
    have hread : readPrivateKey backend (issuance.path .authorityKey) issuance.keyPassword
        (some (backend.keyPem request.authorityKey)) = .ok request.authorityKey := by
      unfold readPrivateKey
      simp only [hlawful.isUtf8_pem, hlawful.isEncrypted_pem, hlawful.privateKey_pem, Bool.true_eq_false,
        Bool.false_eq_true, if_false]
    unfold Authority.read readPresent
    rw [hcertificate, hkey]
    simp only [hchain, hread, hvalid, bind, Except.bind, pure, Except.pure]

/-- At the time of issue more than a third of the shortest lifetime is left. -/
theorem window_open {days : Nat} (hdays : 1 ≤ days) (now : Int) :
    ¬ (now / NANOS - BACKDATE + days * DAY - 1) * NANOS - now < renewalWindow days * NANOS := by
  have hless := min_le_left ((days : Int) * DAY / 3) (30 * DAY)
  have hsecond : now < (now / NANOS + 1) * NANOS := by
    rw [NANOS]
    omega
  unfold renewalWindow
  simp only [NANOS, BACKDATE, HOUR, day_eq] at hless hsecond ⊢
  omega

/-- Validity starts before the time of issue. -/
theorem not_early (now : Int) : ¬ now / NANOS < now / NANOS - BACKDATE := by
  rw [BACKDATE, HOUR]
  omega

/-- **A signed certificate** is written as a pair, and judged current once it is there. -/
theorem signLeaf_spec (hlawful : Lawful backend) (hdays : 1 ≤ issuance.days) (hasked : request.Asked issuance)
    (husable : Usable backend chain key) :
    ∃ certificate notAfter, signLeaf backend issuance request chain key = .ok (writePair .certificate
        (backend.certificatePem (certificate :: chain)) .key (backend.keyPem request.leafKey), certificate, notAfter) ∧
      ∀ (disk : Disk ω) expires, disk.file .certificate = some (backend.certificatePem (certificate :: chain)) →
        disk.file .key = some (backend.keyPem request.leafKey) →
        Leaf.judge backend issuance disk (.present chain key expires) request.names request.now =
          .current certificate notAfter := by
  obtain ⟨signer, rest, authority, rfl, hparseSigner, hfitsSigner, hsigns⟩ := husable
  have hstop := hasked.stop
  have hstart := hasked.start
  have hmax := le_max_left ((issuance.days : Int) * DAY) AUTHORITY_LIFETIME
  have hday := day_eq
  have hdays' : (1 : Int) ≤ issuance.days := by omega
  have hlong : DAY ≤ (issuance.days : Int) * DAY := by rw [day_eq]; omega
  obtain ⟨certificate, hsigned⟩ := hsigns ⟨request.names, request.now / NANOS - BACKDATE,
    request.now / NANOS - BACKDATE + issuance.days * DAY - 1⟩ request.leafKey
  obtain ⟨hfits, hverify, leaf, hparse, hissuer, hnotBefore, hnotAfter, hnames⟩ :=
    hlawful.signedBy _ _ _ rest _ _ authority hsigned hfitsSigner hparseSigner
  refine ⟨certificate, request.now / NANOS - BACKDATE + issuance.days * DAY - 1, ?_, fun disk expires hcertificate hkey => ?_⟩
  · unfold signLeaf
    rw [checkedTime_ok hstart (by omega)]
    simp only [bind, Except.bind]
    rw [checkedTime_ok (by omega) (by omega)]
    simp only [hasked.ascii, hsigned]
    rfl
  · have hauthority : signedByAuthority backend certificate leaf.issuer signer = true := by
      unfold signedByAuthority
      simp only [hparseSigner, hissuer, hverify, decide_true, Bool.and_self]
    have hcarried : request.names.filter (fun name => !(carriedNames leaf).contains name) = [] := by
      have hgeneral : (request.names.map SubjectName.general).filterMap GeneralName.subject = request.names := by
        rw [List.filterMap_map]
        refine (List.filterMap_congr fun name _ => ?_).trans List.filterMap_some
        cases name with
        | dns name => rfl
        | ip address =>
          rw [Function.comp_apply, SubjectName.general, GeneralName.subject, dif_pos address.size]
      obtain ⟨names, hunique⟩ := hasked.named
      refine List.filter_eq_nil_iff.mpr fun name hname => ?_
      have hmem : name ∈ carriedNames leaf := by
        unfold carriedNames
        rw [hnames]
        simp only [hgeneral]
        rw [hunique] at hname ⊢
        exact SubjectName.mem_unique_unique hname
      simpa using hmem
    have hwindow : ¬ leaf.notAfter * NANOS - request.now < renewalWindow issuance.days * NANOS := by
      rw [hnotAfter]
      exact window_open hdays request.now
    have hvalid : ¬ request.now / NANOS < leaf.notBefore := by
      rw [hnotBefore]
      exact not_early request.now
    have hjudged : judgeParsed backend issuance certificate leaf (.present (signer :: rest) key expires) request.names
        request.now = .current certificate leaf.notAfter := by
      unfold judgeParsed
      simp only [hauthority, Bool.true_eq_false, if_false, if_neg hvalid, if_neg hwindow, hcarried]
    unfold Leaf.judge
    rw [hcertificate, hkey]
    simp only [hlawful.certs_pem, hlawful.privateKey_pem, hfits, hparse, hjudged, hnotAfter]

theorem settled_of_current {expires : Int} {names : List SubjectName} {now : Int} {presented : δ}
    {notAfter : Int} (hread : Authority.read backend issuance disk = .ok (.present chain key expires))
    (hjudge : Leaf.judge backend issuance disk (.present chain key expires) names now = .current presented notAfter) :
    Settled backend disk names ∧ ∀ again : Request κ, again.names = names → again.now = now → again.force = false →
      ∃ managed, ensure backend issuance disk again = ([], .ok managed) ∧ managed.issued = none := by
  obtain ⟨authority, signer, others, hauthority, hcerts, rfl⟩ := read_present hread
  have hinner := hjudge
  unfold Leaf.judge at hinner
  split at hinner
  · rename_i certificate keyText hcertificate hkey
    split at hinner
    · cases hinner
    · cases hinner
    · rename_i first rest hchain
      split at hinner
      · cases hinner
      · cases hinner
      · rename_i leafKey hleafKey
        split at hinner
        · cases hinner
        · cases hinner
        · rename_i hfits
          split at hinner
          · cases hinner
          · rename_i leaf hparse
            unfold judgeParsed at hinner
            simp only at hinner
            split at hinner
            · cases hinner
            · rename_i hsigned
              split at hinner
              · cases hinner
              · split at hinner
                · cases hinner
                · split at hinner
                  · rename_i hnone
                    have hfirst : first = presented := (Leaf.current.inj hinner).1
                    subst hfirst
                    refine ⟨⟨certificate, keyText, first, rest, leafKey, leaf, hcertificate, hkey, hchain, hleafKey,
                      hfits, hparse, ⟨authority, signer, others, hauthority, hcerts, by simpa using hsigned⟩, ?_⟩, ?_⟩
                    · intro name hname
                      have hkept := List.filter_eq_nil_iff.mp hnone name hname
                      simpa using hkept
                    · intro again hnames hnow hforce
                      unfold ensure
                      simp only [hread, hnames, hnow, hforce, hjudge, hparse]
                      exact ⟨_, rfl, rfl⟩
                  · cases hinner
  · cases hinner

/-- Where the authority is there once a call has ended, and the certificate is judged current. -/
theorem recovers_of_current {managed : Managed} (hok : (ensure backend issuance disk request).2 = .ok managed)
    {expires : Int} {presented : δ} {notAfter : Int}
    (hread : Authority.read backend issuance (finished backend issuance disk request) = .ok (.present chain
      key expires)) (hjudge : Leaf.judge backend issuance (finished backend issuance disk request)
      (.present chain key expires) request.names request.now = .current presented notAfter) : Recovers
      backend issuance disk request := by
  obtain ⟨hsettled, hagain⟩ := settled_of_current hread hjudge
  exact ⟨⟨managed, hok⟩, hsettled, hagain⟩

/-- Steps that touch the served certificate's files only. -/
def OnLeaf (steps : List (FsStep ω)) : Prop := ∀ step ∈ steps, step.slot = .certificate ∨ step.slot = .key

theorem OnLeaf.frame {steps : List (FsStep ω)} (h : OnLeaf steps) (n : Nat) (disk : Disk ω) :
    (disk.apply (steps.take n)).file .authorityCertificate = disk.file .authorityCertificate ∧
      (disk.apply (steps.take n)).file .authorityKey = disk.file .authorityKey := by
  constructor
  · refine apply_frame _ disk fun step hstep heq => ?_
    rcases h step (List.mem_of_mem_take hstep) with hslot | hslot <;> rw [hslot] at heq <;> cases heq
  · refine apply_frame _ disk fun step hstep heq => ?_
    rcases h step (List.mem_of_mem_take hstep) with hslot | hslot <;> rw [hslot] at heq <;> cases heq

omit [DecidableEq ν] in
variable (backend issuance) in
/-- After the steps already taken, only the served certificate's files are written. -/
theorem issueFrom_steps (request : Request κ) (issued : Renewal) (created : Bool) (steps : List (FsStep ω))
    (chain : List δ) (key : κ) (expires : Int) :
    ∃ more, (issueFrom backend issuance request issued created steps (.present chain key expires)).1 = steps ++ more ∧
      OnLeaf more := by
  unfold issueFrom
  simp only
  split
  · exact ⟨[], (List.append_nil steps).symm, fun _ h => absurd h List.not_mem_nil⟩
  · rename_i written certificate notAfter hsigned
    refine ⟨written, rfl, ?_⟩
    unfold signLeaf at hsigned
    simp only [bind, Except.bind] at hsigned
    split at hsigned
    · cases hsigned
    · split at hsigned
      · cases hsigned
      · split at hsigned
        · cases hsigned
        · split at hsigned
          · cases hsigned
          · split at hsigned
            · cases hsigned
            · cases hsigned
              exact fun step hstep => writePair_slot hstep

/-- **After it has signed**, whatever was done before, the certificate is judged current. -/
theorem issueFrom_spec (hlawful : Lawful backend) (hdays : 1 ≤ issuance.days)
    (hasked : request.Asked issuance) (husable : Usable backend chain key) (issued : Renewal) (created : Bool)
    (steps : List (FsStep ω)) (expires : Int) :
    (∃ managed, (issueFrom backend issuance request issued created steps (.present chain key expires)).2 =
      .ok managed) ∧ ∀ disk : Disk ω, ∃ presented notAfter, Leaf.judge backend issuance
      (disk.apply (issueFrom backend issuance request issued created steps (.present chain key expires)).1)
      (.present chain key expires) request.names request.now = .current presented notAfter := by
  obtain ⟨certificate, notAfter, hsigned, hcurrent⟩ := signLeaf_spec hlawful hdays hasked husable
  unfold issueFrom
  simp only [hsigned]
  refine ⟨⟨_, rfl⟩, fun disk => ⟨certificate, notAfter, hcurrent _ expires ?_ ?_⟩⟩
  · rw [apply_append, writePair_file (by decide), Function.update_self]
  · rw [apply_append, writePair_file (by decide), Function.update_of_ne (by decide), Function.update_self]

/-- With an authority that is read, a call keeps the certificate or signs another. -/
theorem ensure_present {expires : Int}
    (hread : Authority.read backend issuance disk = .ok (.present chain key expires)) (request : Request κ) :
    (∃ presented notAfter, Leaf.judge backend issuance disk (.present chain key expires) request.names request.now =
      .current presented notAfter ∧ request.force = false) ∨ ∃ issued, ensure backend issuance disk request =
      issueFrom backend issuance request issued false [] (.present chain key expires) := by
  unfold ensure
  simp only [hread]
  cases hjudge : Leaf.judge backend issuance disk (.present chain key expires) request.names request.now with
  | due renewal => exact Or.inr ⟨renewal, rfl⟩
  | current presented notAfter =>
    cases hforce : request.force with
    | true => exact Or.inr ⟨.forced, rfl⟩
    | false => exact Or.inl ⟨presented, notAfter, rfl, rfl⟩

/-- Without an authority one is created first. -/
theorem ensure_absent (hlawful : Lawful backend) (hsupplied : issuance.supplied = false)
    (hasked : request.Asked issuance) (h : NoAuthority disk) :
    ∃ certificate expires issued, ensure backend issuance disk request =
        issueFrom backend issuance request issued true (writePair .authorityCertificate
          (backend.certificatePem [certificate]) .authorityKey (backend.keyPem request.authorityKey))
          (.present [certificate] request.authorityKey expires) ∧
      Usable backend [certificate] request.authorityKey ∧
      ∀ disk : Disk ω, disk.file .authorityCertificate = some (backend.certificatePem [certificate]) →
        disk.file .authorityKey = some (backend.keyPem request.authorityKey) →
        Authority.read backend issuance disk = .ok (.present [certificate] request.authorityKey expires) := by
  obtain ⟨certificate, expires, hcreated, husable, hpresent⟩ := createAuthority_spec hlawful hasked
  have hjudge : ∃ renewal, Leaf.judge backend issuance disk (.absent : Authority δ κ) request.names request.now =
      .due renewal := by
    unfold Leaf.judge judgeParsed
    split
    · split
      · exact ⟨_, rfl⟩
      · exact ⟨_, rfl⟩
      · split
        · exact ⟨_, rfl⟩
        · exact ⟨_, rfl⟩
        · split
          · exact ⟨_, rfl⟩
          · exact ⟨_, rfl⟩
          · split
            · exact ⟨_, rfl⟩
            · exact ⟨_, rfl⟩
    · exact ⟨_, rfl⟩
  obtain ⟨renewal, hjudge⟩ := hjudge
  refine ⟨certificate, expires, renewal, ?_, husable, hpresent⟩
  unfold ensure
  simp only [read_absent hsupplied h, hjudge]
  unfold issue
  simp only [hcreated]

/-! ## 8. Any stops -/

variable (backend issuance) in
/-- A disk on which a project may stand: no authority, or one that can sign. -/
def Sound (disk : Disk ω) : Prop := NoAuthority disk ∨ Healthy backend issuance disk

/-- The authority's key without its certificate. -/
def Half (disk : Disk ω) : Prop :=
  disk.file .authorityCertificate = none ∧ (disk.file .authorityKey).isSome = true

theorem authority_take {certificate key : ω} {more : List (FsStep ω)} (hmore : OnLeaf more)
    (h : NoAuthority disk) (n : Nat) :
    let after := disk.apply ((writePair .authorityCertificate certificate .authorityKey key ++ more).take n)
    (n ≤ 4 ∧ NoAuthority after) ∨ (n = 5 ∧ Half after) ∨
      (6 ≤ n ∧ after.file .authorityCertificate = some certificate ∧ after.file .authorityKey = some key) := by
  have hlength : (writePair .authorityCertificate certificate .authorityKey key).length = 6 := rfl
  intro after
  rcases Nat.lt_or_ge n 6 with hshort | hlong
  · have hafter : after = disk.apply ((writePair .authorityCertificate certificate .authorityKey key).take n) := by
      show disk.apply _ = _
      rw [List.take_append_of_le_length (by omega)]
    rcases Nat.lt_or_ge n 5 with hearly | hfive
    · refine Or.inl ⟨by omega, ?_⟩
      rw [hafter, NoAuthority, writePair_early certificate key disk (by omega)]
      exact h
    · have hn : n = 5 := by omega
      subst hn
      refine Or.inr (Or.inl ⟨rfl, ?_⟩)
      rw [hafter, Half, writePair_half, Function.update_self, Function.update_of_ne (by decide)]
      exact ⟨h.1, rfl⟩
  · refine Or.inr (Or.inr ⟨hlong, ?_⟩)
    have hafter : after = (disk.apply (writePair .authorityCertificate certificate .authorityKey key)).apply
        (more.take (n - 6)) := by
      show disk.apply _ = _
      rw [List.take_append, hlength, List.take_of_length_le (by omega), apply_append]
    obtain ⟨hcertificate, hkey⟩ := hmore.frame (n - 6)
      (disk.apply (writePair .authorityCertificate certificate .authorityKey key))
    rw [hafter, hcertificate, hkey, writePair_file (by decide), Function.update_self,
      Function.update_of_ne (by decide), Function.update_self]
    exact ⟨rfl, rfl⟩

/-- **With a whole authority or none, issuing succeeds and is then done.** -/
theorem ensure_recovers (hlawful : Lawful backend) (hsupplied : issuance.supplied = false)
    (hdays : 1 ≤ issuance.days) (hsound : Sound backend issuance disk) (hasked : request.Asked issuance) :
    Recovers backend issuance disk request := by
  rcases hsound with habsent | ⟨chain, key, expires, hread, husable⟩
  · obtain ⟨certificate, expires, issued, hensure, husable, hpresent⟩ :=
      ensure_absent hlawful hsupplied hasked habsent
    obtain ⟨⟨managed, hok⟩, hcurrent⟩ := issueFrom_spec hlawful hdays hasked husable issued true
      (writePair .authorityCertificate (backend.certificatePem [certificate]) .authorityKey
        (backend.keyPem request.authorityKey)) expires
    rw [← hensure] at hok hcurrent
    obtain ⟨more, hsteps, hmore⟩ := issueFrom_steps backend issuance request issued true
      (writePair .authorityCertificate (backend.certificatePem [certificate]) .authorityKey
        (backend.keyPem request.authorityKey)) [certificate] request.authorityKey expires
    rw [← hensure] at hsteps
    obtain ⟨presented, notAfter, hjudge⟩ := hcurrent disk
    -- the steps run to their end
    have hwhole : finished backend issuance disk request = disk.apply ((writePair .authorityCertificate
        (backend.certificatePem [certificate]) .authorityKey (backend.keyPem request.authorityKey) ++ more).take
          (6 + more.length)) := by
      rw [finished, hsteps, List.take_of_length_le (by rw [List.length_append]; rfl)]
    rcases authority_take hmore habsent (6 + more.length) with h | h | ⟨-, hcertificate, hkey⟩
    · omega
    · omega
    · rw [← hwhole] at hcertificate hkey
      exact recovers_of_current hok (hpresent _ hcertificate hkey) hjudge
  · rcases ensure_present hread request with ⟨presented, notAfter, hjudge, hforce⟩ | ⟨issued, hensure⟩
    · obtain ⟨managed, hkept, -⟩ := (settled_of_current hread hjudge).2 request rfl rfl hforce
      have hok : (ensure backend issuance disk request).2 = .ok managed := by rw [hkept]
      have hfinished : finished backend issuance disk request = disk := by
        rw [finished, hkept]
        rfl
      exact recovers_of_current hok (by rw [hfinished]; exact hread) (by rw [hfinished]; exact hjudge)
    · obtain ⟨⟨managed, hok⟩, hcurrent⟩ := issueFrom_spec hlawful hdays hasked husable issued false [] expires
      rw [← hensure] at hok hcurrent
      obtain ⟨more, hsteps, hmore⟩ := issueFrom_steps backend issuance request issued false
        [] chain key expires
      rw [← hensure, List.nil_append] at hsteps
      obtain ⟨presented, notAfter, hjudge⟩ := hcurrent disk
      have hread' : Authority.read backend issuance (finished backend issuance disk request) =
          .ok (.present chain key expires) := by
        have hframe := hmore.frame more.length disk
        rw [List.take_length] at hframe
        rw [finished, hsteps, read_congr hframe.1 hframe.2, hread]
      exact recovers_of_current hok hread' hjudge

/-- A call, and how many of its steps are taken before the process stops; all, if it has fewer. -/
structure Attempt (κ : Type) where
  request : Request κ
  stop : Nat

variable (backend issuance) in
/-- The disk that an attempt leaves. -/
def stopped (disk : Disk ω) (attempt : Attempt κ) : Disk ω :=
  disk.apply ((ensure backend issuance disk attempt.request).1.take attempt.stop)

variable (backend issuance) in
def run : Disk ω → List (Attempt κ) → Disk ω
  | disk, [] => disk
  | disk, attempt :: rest => run (stopped backend issuance disk attempt) rest

/-- The attempt creates an authority and stops between the renames of its two files. -/
def Parts (disk : Disk ω) (attempt : Attempt κ) : Prop := NoAuthority disk ∧ attempt.stop = 5

variable (backend issuance) in
/-- No attempt of the run parts a new authority's two files. -/
def NeverParts : Disk ω → List (Attempt κ) → Prop
  | _, [] => True
  | disk, attempt :: rest => ¬ Parts disk attempt ∧ NeverParts (stopped backend issuance disk attempt) rest

theorem stopped_sound (hlawful : Lawful backend) (hsupplied : issuance.supplied = false)
    (hsound : Sound backend issuance disk) {attempt : Attempt κ} (hasked : attempt.request.Asked issuance) :
    (¬ Parts disk attempt ∧ Sound backend issuance (stopped backend issuance disk attempt)) ∨
      (Parts disk attempt ∧ Half (stopped backend issuance disk attempt)) := by
  rcases hsound with habsent | ⟨chain, key, expires, hread, husable⟩
  · obtain ⟨certificate, expires, issued, hensure, husable, hpresent⟩ :=
      ensure_absent hlawful hsupplied hasked habsent
    obtain ⟨more, hsteps, hmore⟩ := issueFrom_steps backend issuance attempt.request issued
      true (writePair .authorityCertificate (backend.certificatePem [certificate]) .authorityKey
        (backend.keyPem attempt.request.authorityKey)) [certificate] attempt.request.authorityKey expires
    rw [← hensure] at hsteps
    have hstopped : stopped backend issuance disk attempt = disk.apply ((writePair .authorityCertificate
        (backend.certificatePem [certificate]) .authorityKey (backend.keyPem attempt.request.authorityKey) ++ more).take
          attempt.stop) := by
      rw [stopped, hsteps]
    rcases authority_take hmore habsent attempt.stop with ⟨hn, h⟩ | ⟨hn, h⟩ | ⟨hn, hcertificate, hkey⟩
    · exact Or.inl ⟨fun hparts => by have := hparts.2; omega, Or.inl (by rw [hstopped]; exact h)⟩
    · exact Or.inr ⟨⟨habsent, hn⟩, by rw [hstopped]; exact h⟩
    · rw [← hstopped] at hcertificate hkey
      exact Or.inl ⟨fun hparts => by have := hparts.2; omega,
        Or.inr ⟨[certificate], attempt.request.authorityKey, expires, hpresent _ hcertificate hkey, husable⟩⟩
  · have honLeaf : OnLeaf (ensure backend issuance disk attempt.request).1 := by
      rcases ensure_present hread attempt.request with ⟨presented, notAfter, hjudge, hforce⟩ | ⟨issued, hensure⟩
      · obtain ⟨managed, hkept, -⟩ := (settled_of_current hread hjudge).2 attempt.request rfl rfl hforce
        rw [hkept]
        exact fun _ h => absurd h List.not_mem_nil
      · obtain ⟨more, hsteps, hmore⟩ := issueFrom_steps backend issuance attempt.request
          issued false [] chain key expires
        rw [hensure, hsteps]
        exact hmore
    have hframe := honLeaf.frame attempt.stop disk
    refine Or.inl ⟨fun hparts => ?_, Or.inr ⟨chain, key, expires, ?_, husable⟩⟩
    · rw [read_absent hsupplied hparts.1] at hread
      cases hread
    · rw [stopped, read_congr hframe.1 hframe.2, hread]

variable (backend issuance) in
theorem ensure_half (hsupplied : issuance.supplied = false) (h : Half disk) (request : Request κ) :
    ensure backend issuance disk request = ([], .error (.authorityIncomplete (issuance.path .authorityKey)
      (issuance.path .authorityCertificate))) := by
  obtain ⟨hcertificate, hkey⟩ := h
  obtain ⟨key, hkey⟩ := Option.isSome_iff_exists.mp hkey
  have hread : Authority.read backend issuance disk = .error (.authorityIncomplete (issuance.path .authorityKey)
      (issuance.path .authorityCertificate)) := by
    unfold Authority.read
    rw [hcertificate, hkey, hsupplied]
    rfl
  unfold ensure
  rw [hread]

theorem run_half (hsupplied : issuance.supplied = false) : ∀ (attempts : List (Attempt κ)) {disk : Disk ω}, Half disk →
    run backend issuance disk attempts = disk
  | [], _, _ => rfl
  | attempt :: rest, disk, h => by
      have hstopped : stopped backend issuance disk attempt = disk := by
        rw [stopped, ensure_half backend issuance hsupplied h, List.take_nil]
        rfl
      rw [run, hstopped]
      exact run_half hsupplied rest h

/-- **Issuing survives any stops** but those between the two renames that put a new authority in its place:
    after one of these no later call succeeds. -/
theorem recovers_iff (hlawful : Lawful backend) (hsupplied : issuance.supplied = false) (hdays : 1 ≤ issuance.days) :
    ∀ (attempts : List (Attempt κ)) {disk : Disk ω}, Sound backend issuance disk →
      (∀ attempt ∈ attempts, attempt.request.Asked issuance) → ∀ {request : Request κ}, request.Asked issuance →
      (Recovers backend issuance (run backend issuance disk attempts) request ↔
        NeverParts backend issuance disk attempts)
  | [], disk, hsound, _, request, hasked => iff_of_true (ensure_recovers hlawful hsupplied hdays hsound hasked) trivial
  | attempt :: rest, disk, hsound, hattempts, request, hasked => by
      rw [run, NeverParts]
      rcases stopped_sound hlawful hsupplied hsound (hattempts attempt List.mem_cons_self) with
        ⟨hnot, hsound'⟩ | ⟨hparts, hhalf⟩
      · rw [recovers_iff hlawful hsupplied hdays rest hsound' (fun other hother =>
          hattempts other (List.mem_cons_of_mem _ hother)) hasked]
        exact ⟨fun h => ⟨hnot, h⟩, fun h => h.2⟩
      · refine iff_of_false (fun hrecovers => ?_) fun h => h.1 hparts
        obtain ⟨⟨managed, hok⟩, -⟩ := hrecovers
        rw [run_half hsupplied rest hhalf, ensure_half backend issuance hsupplied hhalf] at hok
        cases hok

end

/-! ## 9. A project -/

namespace Sample

/-- A certificate as what it says: the names it carries, the public key it is for, and the one it is signed with. -/
structure Der where
  subject : String
  issuer : String
  publicKey : Nat
  signer : Nat
  notBefore : Int
  notAfter : Int
  isCa : Bool
  names : Option (List GeneralName)

inductive Contents where
  | certificates (chain : List Der)
  | key (key : Nat)

/-- Keys are numbers, each its own public key. -/
def backend : Backend Contents Der Nat String Nat where
  certs contents := match contents with
    | .certificates chain => .ok chain
    | .key _ => .ok []
  privateKey contents := match contents with
    | .certificates _ => .ok none
    | .key key => .ok (some key)
  isUtf8 _ := true
  isEncrypted _ := false
  decrypt _ _ := .error "not encrypted"
  certifiedKey chain key := match chain with
    | [] => .error (.other "no certificate")
    | first :: _ => if first.publicKey = key then .ok () else .error .inconsistentKeys
  parse der := .ok ⟨der.subject, der.issuer, der.publicKey, der.notBefore, der.notAfter, der.isCa,
    .ok (if der.isCa then some true else some false), der.names⟩
  verify der key := der.signer == key
  selfSigned params key := .ok ⟨params.commonName, params.commonName, key, key, params.notBefore, params.notAfter, true,
    none⟩
  signedBy params fresh signer key := .ok ⟨"Ceres", signer.subject, fresh, key, params.notBefore, params.notAfter, false,
    some (params.subjectAltNames.map SubjectName.general)⟩
  certificatePem := .certificates
  keyPem := .key
  fingerprint _ := ""
  date _ := ""

theorem lawful : Lawful backend where
  certs_pem _ _ := rfl
  privateKey_pem _ := rfl
  isUtf8_pem _ := rfl
  isEncrypted_pem _ := rfl
  selfSigned params key := by
    refine ⟨_, _, rfl, rfl, rfl, rfl, rfl, ?_, fun _ _ => ⟨_, rfl⟩⟩
    exact if_pos rfl
  signedBy := by
    intro params fresh signer rest key certificate authority hsigned hfits hparse
    cases hsigned
    cases hparse
    have hkey : signer.publicKey = key := by
      by_contra hne
      have hfits' : (if signer.publicKey = key then .ok () else .error .inconsistentKeys : Except KeyError Unit) =
          .ok () := hfits
      rw [if_neg hne] at hfits'
      cases hfits'
    refine ⟨fun chain => if_pos rfl, ?_, _, rfl, rfl, rfl, rfl, rfl⟩
    exact beq_iff_eq.mpr hkey.symm

def issuance : Issuance where
  path slot := match slot with
    | .authorityCertificate => ".ceres/tls/ca.crt"
    | .authorityKey => ".ceres/tls/ca.key"
    | .certificate => ".ceres/tls/server.crt"
    | .key => ".ceres/tls/server.key"
  keyPassword := none
  supplied := false
  days := 365

/-- A project without any of the files. -/
def fresh : Disk Contents where
  file _ := none
  staged _ := []

def request : Request Nat where
  names := [.dns "localhost".toList]
  now := 1700000000000000000
  force := false
  hostname := none
  authorityKey := 1
  leafKey := 2

theorem asked : request.Asked issuance where
  named := ⟨[.dns "localhost".toList], by decide⟩
  ascii := by decide
  start := by decide
  stop := by decide

end Sample

/-- A process that stops once while signing, and once more, with its authority in place. -/
theorem recovers_after_two_stops :
    Recovers Sample.backend Sample.issuance
        (run Sample.backend Sample.issuance Sample.fresh [⟨Sample.request, 11⟩, ⟨Sample.request, 3⟩]) Sample.request ↔
      NeverParts Sample.backend Sample.issuance Sample.fresh [⟨Sample.request, 11⟩, ⟨Sample.request, 3⟩] :=
  recovers_iff Sample.lawful rfl (by decide) [⟨Sample.request, 11⟩, ⟨Sample.request, 3⟩] (Or.inl ⟨rfl, rfl⟩)
    (by
      intro attempt hattempt
      simp only [List.mem_cons, List.not_mem_nil, or_false] at hattempt
      rcases hattempt with rfl | rfl <;> exact Sample.asked) Sample.asked

/-- **A process that stops between the two renames** of a new authority leaves its key alone: the next call is
    refused. -/
theorem stopped_between_renames :
    (ensure Sample.backend Sample.issuance
      (stopped Sample.backend Sample.issuance Sample.fresh ⟨Sample.request, 5⟩) Sample.request).2 =
        .error (.authorityIncomplete ".ceres/tls/ca.key" ".ceres/tls/ca.crt") ∧
    ¬ Recovers Sample.backend Sample.issuance
      (stopped Sample.backend Sample.issuance Sample.fresh ⟨Sample.request, 5⟩) Sample.request := by
  have hhalf : Half (stopped Sample.backend Sample.issuance Sample.fresh ⟨Sample.request, 5⟩) := ⟨rfl, rfl⟩
  have hrefused := ensure_half Sample.backend Sample.issuance rfl hhalf Sample.request
  refine ⟨by rw [hrefused]; rfl, fun hrecovers => ?_⟩
  obtain ⟨⟨managed, hok⟩, -⟩ := hrecovers
  rw [hrefused] at hok
  cases hok

end Ceres.Server.Certificate
