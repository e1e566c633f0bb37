/-
  File:      Ceres/Server/Cookie.lean
  Subject:   THE LOGIN COOKIE (`rust/ceres-server/src/cookie.rs`: `CookieType::assign`; `auth.rs`:
             `bearer_token`, `authorization_cookie`).

  A login sets the token as a cookie in quotes. A browser sends it back among all its other cookies, in one
  line or several, and the server looks for it from the first pair on.

  * `assign`, `setPair` -- what the server sets, and the pair of it that comes back;
  * `CookiePair`, `Line` -- what browsers send: pairs, and values without a name;
  * `scanPairs_named` -- the scan passes a pair that has a name, and stops at one that has none;
  * **`bearerToken_iff`** -- the token is found exactly if no value without a name comes in front of it;
  * `nameless_ends_scan` -- one that does.
-/
import Ceres.Database.Selector
import Ceres.Paths.Template
import Mathlib.Data.List.DropRight

namespace Ceres.Server.Cookie

open Ceres.Library
open Ceres.Database (mem_intercalate splitOnce splitOnce_append splitOnce_eq_none dateOf hourOf minuteOf secondOf)
open Ceres.Paths (weekday WEEKDAYS MONTHS)

/-! ## 1. Setting the cookie -/

inductive CookieType where
  | insecure
  | secure
  deriving DecidableEq

/-- `%Y`, with a sign where it has not four digits. -/
def yearText (year : Int) : Text :=
  if year < 0 then '-' :: fixed (max 4 (Nat.toDigits 10 year.natAbs).length) year.natAbs
  else if 9999 < year then '+' :: Nat.toDigits 10 year.natAbs
  else fixed 4 year.natAbs

/-- `http_date`, of an instant in microseconds. -/
def httpDate (moment : Int) : Text :=
  (WEEKDAYS.getD (weekday moment) []).take 3 ++ ", ".toList ++ fixed 2 (dateOf moment).day ++ [' '] ++
    (MONTHS.getD ((dateOf moment).month - 1) []).take 3 ++ [' '] ++ yearText (dateOf moment).year ++ [' '] ++
    fixed 2 (hourOf moment) ++ [':'] ++ fixed 2 (minuteOf moment) ++ [':'] ++ fixed 2 (secondOf moment) ++
    " GMT".toList

/-- The `Set-Cookie` value assigning a token. -/
def CookieType.assign (type : CookieType) (token : Text) (expires : Int) : Text :=
  "Authorization=\"Bearer ".toList ++ token ++ ['"'] ++ ("; expires=".toList ++ httpDate expires ++
    match type with
    | .insecure => "; Path=/; SameSite=lax".toList
    | .secure => "; HttpOnly; Path=/; SameSite=lax; Secure".toList)

/-! ## 2. Reading it back -/

abbrev HeaderValue : Type := List UInt8

structure HeaderMap where
  authorization : List HeaderValue
  cookie : List HeaderValue

/-- `to_str`: visible ASCII, the blank and the tab. -/
def toStr (value : HeaderValue) : Option Text :=
  if value.all fun b => (32 ≤ b && b < 127) || b == 9 then some (value.map fun b => Char.ofNat b.toNat) else none

/-- `trim`; of what `toStr` lets through the blank and the tab are whitespace. -/
def trim (text : Text) : Text := (text.dropWhile Char.isWhitespace).rdropWhile Char.isWhitespace

def trimQuotes (text : Text) : Text := (text.dropWhile (· == '"')).rdropWhile (· == '"')

/-- `replace` of an escaped quote. -/
def unescape : Text → Text
  | '\\' :: '"' :: rest => '"' :: unescape rest
  | c :: rest => c :: unescape rest
  | [] => []

/-- How a scan ends: with the cookie's value, without an answer, or at the end of what it scans. -/
inductive Scan where
  | found (value : Text)
  | stopped
  | passed
  deriving DecidableEq

def scanPairs : List Text → Scan
  | [] => .passed
  | pair :: rest =>
    match splitOnce '=' (trim pair) with
    | none => .stopped
    | some (name, value) =>
      if name = "Authorization".toList then .found (unescape (trimQuotes value)) else scanPairs rest

def scanLines : List HeaderValue → Scan
  | [] => .passed
  | line :: rest =>
    match toStr line with
    | none => .stopped
    | some cookies =>
      match scanPairs (cookies.splitOn ';') with
      | .passed => scanLines rest
      | scan => scan

def authorizationCookie (headers : HeaderMap) : Option Text :=
  match scanLines headers.cookie with
  | .found value => some value
  | _ => none

def bearerToken (headers : HeaderMap) : Option Text :=
  let header := headers.authorization.head?.bind toStr
  (header.orElse fun _ => authorizationCookie headers).bind fun value =>
    if "Bearer ".toList.isPrefixOf value then some (value.drop 7) else none

/-! ## 3. What browsers send -/

/-- A token: the alphabet of `base64url` and the dots between its parts. -/
structure Token where
  text : Text
  alphabet : ∀ c ∈ text, c.isAlphanum = true ∨ c = '-' ∨ c = '_' ∨ c = '.'

inductive CookiePair where
  | named (name value : Text)
  | nameless (value : Text)

def CookiePair.text : CookiePair → Text
  | .named name value => name ++ '=' :: value
  | .nameless value => value

/-- A text of a pair: printable ASCII without the separator, and no blanks at its ends. -/
structure Sendable (text : Text) : Prop where
  printable : ∀ c ∈ text, 32 ≤ c.toNat ∧ c.toNat < 127 ∧ c ≠ ';'
  front : text.head? ≠ some ' '
  back : text.getLast? ≠ some ' '

/-- What a browser sends of a cookie. -/
def CookiePair.Sent : CookiePair → Prop
  | .named name value => name ≠ [] ∧ '=' ∉ name ∧ Sendable name ∧ Sendable value
  | .nameless value => value ≠ [] ∧ '=' ∉ value ∧ Sendable value

/-- A cookie other than the login's. -/
structure Neighbour where
  pair : CookiePair
  sent : pair.Sent
  other : ∀ value, pair ≠ .named "Authorization".toList value

def Neighbour.Named (neighbour : Neighbour) : Prop := ∃ name value, neighbour.pair = .named name value

/-- A `Cookie` line: pairs behind the first one. -/
structure Line where
  first : Neighbour
  rest : List Neighbour

def Line.pairs (line : Line) : List Neighbour := line.first :: line.rest

/-- A blank in front of every pair but the first. -/
def spaced : List Text → List Text
  | [] => []
  | first :: rest => first :: rest.map (' ' :: ·)

/-- Pairs separated by `; `. -/
def joined (pairs : List Text) : HeaderValue :=
  ([';'].intercalate (spaced pairs)).map fun c => UInt8.ofNat c.toNat

def Line.value (line : Line) : HeaderValue := joined (line.pairs.map (·.pair.text))

/-- The pair of what was assigned: all in front of its first attribute. -/
def setPair (type : CookieType) (token : Token) (expires : Int) : Text :=
  ((type.assign token.text expires).splitOn ';').headD []

def loginLine (before after : List Neighbour) (type : CookieType) (token : Token) (expires : Int) : HeaderValue :=
  joined (before.map (·.pair.text) ++ setPair type token expires :: after.map (·.pair.text))

/-! ## 4. What is read of a line -/

theorem Sendable.not_separator {text : Text} (h : Sendable text) : ';' ∉ text :=
  fun hmem => (h.printable ';' hmem).2.2 rfl

theorem Sendable.whitespace {text : Text} (h : Sendable text) {c : Char} (hc : c ∈ text)
    (hspace : c.isWhitespace = true) : c = ' ' := by
  obtain ⟨hlow, -, -⟩ := h.printable c hc
  unfold Char.isWhitespace at hspace
  simp only [Bool.or_eq_true, decide_eq_true_eq] at hspace
  rcases hspace with ((hspace | rfl) | rfl) | rfl
  · exact hspace
  · exact absurd hlow (by decide)
  · exact absurd hlow (by decide)
  · exact absurd hlow (by decide)

/-- A text without blanks at its ends, with or without a blank in front of it. -/
theorem trim_of_sendable {text : Text} (h : Sendable text) : trim text = text ∧ trim (' ' :: text) = text := by
  have htext : trim text = text := by
    unfold trim
    have hfront : text.dropWhile Char.isWhitespace = text := by
      cases text with
      | nil => rfl
      | cons c rest =>
        refine List.dropWhile_cons_of_neg fun hspace => h.front ?_
        rw [h.whitespace List.mem_cons_self hspace]
        rfl
    rw [hfront, List.rdropWhile_eq_self_iff]
    intro hne hspace
    refine h.back ?_
    rw [List.getLast?_eq_some_getLast hne, h.whitespace (List.getLast_mem hne) hspace]
  refine ⟨htext, ?_⟩
  have hblank : trim (' ' :: text) = trim text := by
    unfold trim
    rw [List.dropWhile_cons_of_pos (by decide)]
  rw [hblank, htext]

theorem sendable_pair {name value : Text} (hname : name ≠ []) (hn : Sendable name) (hv : Sendable value) :
    Sendable (name ++ '=' :: value) := by
  refine ⟨?_, ?_, ?_⟩
  · intro c hc
    rcases List.mem_append.mp hc with hc | hc
    · exact hn.printable c hc
    · rcases List.mem_cons.mp hc with rfl | hc
      · decide
      · exact hv.printable c hc
  · rw [List.head?_append_of_ne_nil _ hname]
    exact hn.front
  · rw [List.getLast?_append_of_ne_nil _ (List.cons_ne_nil _ _)]
    cases value with
    | nil => simp
    | cons c rest =>
      rw [List.getLast?_cons_cons]
      exact hv.back

theorem Neighbour.sendable (neighbour : Neighbour) : Sendable neighbour.pair.text := by
  obtain ⟨pair, hsent, -⟩ := neighbour
  cases pair with
  | named name value => exact sendable_pair hsent.1 hsent.2.2.1 hsent.2.2.2
  | nameless value => exact hsent.2.2

variable {pairs : List Text}

theorem mem_spaced {part : Text} (h : part ∈ spaced pairs) :
    part ∈ pairs ∨ ∃ pair ∈ pairs, part = ' ' :: pair := by
  cases pairs with
  | nil => cases h
  | cons first rest =>
    rcases List.mem_cons.mp h with rfl | hrest
    · exact .inl List.mem_cons_self
    · obtain ⟨pair, hpair, rfl⟩ := List.mem_map.mp hrest
      exact .inr ⟨pair, List.mem_cons_of_mem _ hpair, rfl⟩

theorem map_trim_spaced (h : ∀ pair ∈ pairs, Sendable pair) : (spaced pairs).map trim = pairs := by
  cases pairs with
  | nil => rfl
  | cons first rest =>
    obtain ⟨hfirst, hrest⟩ := List.forall_mem_cons.mp h
    rw [spaced, List.map_cons, List.map_map, (trim_of_sendable hfirst).1]
    exact congrArg (first :: ·) ((List.map_congr_left fun pair hpair => (trim_of_sendable (hrest pair hpair)).2).trans
      (List.map_id rest))

/-- A line of pairs comes back as these, each with the blank in front of it. -/
theorem toStr_joined (h : ∀ pair ∈ pairs, Sendable pair) :
    toStr (joined pairs) = some ([';'].intercalate (spaced pairs)) := by
  have hprintable : ∀ c ∈ [';'].intercalate (spaced pairs), 32 ≤ c.toNat ∧ c.toNat < 127 := by
    intro c hc
    rcases mem_intercalate hc with rfl | ⟨part, hpart, hc⟩
    · decide
    · rcases mem_spaced hpart with hpair | ⟨pair, hpair, rfl⟩
      · exact ⟨((h part hpair).printable c hc).1, ((h part hpair).printable c hc).2.1⟩
      · rcases List.mem_cons.mp hc with rfl | hc
        · decide
        · exact ⟨((h pair hpair).printable c hc).1, ((h pair hpair).printable c hc).2.1⟩
  have hbyte : ∀ c ∈ [';'].intercalate (spaced pairs), (UInt8.ofNat c.toNat).toNat = c.toNat := by
    intro c hc
    rw [UInt8.toNat_ofNat', Nat.mod_eq_of_lt (by have := hprintable c hc; omega)]
  have hvisible : (joined pairs).all (fun b => (32 ≤ b && b < 127) || b == 9) = true := by
    refine List.all_eq_true.mpr fun b hb => ?_
    obtain ⟨c, hc, rfl⟩ := List.mem_map.mp hb
    have hrange := hprintable c hc
    simp only [Bool.or_eq_true, Bool.and_eq_true, decide_eq_true_eq, UInt8.le_iff_toNat_le, UInt8.lt_iff_toNat_lt,
      hbyte c hc]
    exact .inl hrange
  rw [toStr, if_pos hvisible, joined, List.map_map]
  refine congrArg some ((List.map_congr_left fun c hc => ?_).trans (List.map_id _))
  show Char.ofNat (UInt8.ofNat c.toNat).toNat = c
  rw [hbyte c hc, Char.ofNat_toNat]

theorem splitOn_spaced (hne : pairs ≠ []) (h : ∀ pair ∈ pairs, Sendable pair) :
    ([';'].intercalate (spaced pairs)).splitOn ';' = spaced pairs := by
  refine List.splitOn_intercalate ';' (fun part hpart hmem => ?_) ?_
  · rcases mem_spaced hpart with hpair | ⟨pair, hpair, rfl⟩
    · exact (h part hpair).not_separator hmem
    · exact (h pair hpair).not_separator ((List.mem_cons.mp hmem).resolve_left (by decide))
  · cases pairs with
    | nil => exact absurd rfl hne
    | cons first rest => exact List.cons_ne_nil _ _

/-! ## 5. The scan -/

/-- The scan passes a pair that has a name other than the login's. -/
theorem scanPairs_named {part : Text} {rest : List Text} {neighbour : Neighbour}
    (hpart : trim part = neighbour.pair.text) (h : neighbour.Named) :
    scanPairs (part :: rest) = scanPairs rest := by
  obtain ⟨name, value, hpair⟩ := h
  have hsent := neighbour.sent
  have hother := neighbour.other
  rw [hpair] at hpart hsent hother
  have hname : name ≠ "Authorization".toList := fun heq => hother value (heq ▸ rfl)
  rw [scanPairs, hpart, CookiePair.text, splitOnce_append value hsent.2.1]
  dsimp only
  rw [if_neg hname]

/-- It stops at one that has none. -/
theorem scanPairs_nameless {part : Text} {rest : List Text} {neighbour : Neighbour}
    (hpart : trim part = neighbour.pair.text) (h : ¬ neighbour.Named) : scanPairs (part :: rest) = .stopped := by
  obtain ⟨pair, hsent, hother⟩ := neighbour
  cases pair with
  | named name value => exact absurd ⟨name, value, rfl⟩ h
  | nameless value =>
    rw [scanPairs, hpart]
    show (match splitOnce '=' value with
      | none => Scan.stopped
      | some (name, value) => _) = _
    rw [splitOnce_eq_none.mpr hsent.2.1]

/-- **The scan of some pairs** in front of others. -/
theorem scanPairs_append : ∀ {parts : List Text} {neighbours : List Neighbour} (rest : List Text),
    parts.map trim = neighbours.map (·.pair.text) →
      ((∀ neighbour ∈ neighbours, neighbour.Named) → scanPairs (parts ++ rest) = scanPairs rest) ∧
        (¬ (∀ neighbour ∈ neighbours, neighbour.Named) → scanPairs (parts ++ rest) = .stopped)
  | [], [], _, _ => ⟨fun _ => rfl, fun h => absurd (by simp) h⟩
  | part :: parts, neighbour :: neighbours, rest, hparts => by
    obtain ⟨hpart, hparts⟩ := List.cons.inj hparts
    obtain ⟨hall, hsome⟩ := scanPairs_append rest hparts
    rw [List.forall_mem_cons]
    by_cases hnamed : neighbour.Named
    · rw [List.cons_append, scanPairs_named hpart hnamed]
      exact ⟨fun h => hall h.2, fun h => hsome fun hlater => h ⟨hnamed, hlater⟩⟩
    · rw [List.cons_append, scanPairs_nameless hpart hnamed]
      exact ⟨fun h => absurd h.1 hnamed, fun _ => rfl⟩

section Login

variable (type : CookieType) (token : Token) (expires : Int)

theorem Token.characters (token : Token) : ∀ c ∈ token.text, 32 < c.toNat ∧ c.toNat < 127 ∧ c ≠ ';' ∧ c ≠ '"' ∧
    c ≠ '\\' := by
  intro c hc
  rcases token.alphabet c hc with halpha | rfl | rfl | rfl
  · have hrange : (48 ≤ c.toNat ∧ c.toNat ≤ 57) ∨ (65 ≤ c.toNat ∧ c.toNat ≤ 90) ∨ (97 ≤ c.toNat ∧ c.toNat ≤ 122) := by
      unfold Char.isAlphanum Char.isAlpha Char.isUpper Char.isLower Char.isDigit at halpha
      simp only [Bool.or_eq_true, Bool.and_eq_true, decide_eq_true_eq, UInt32.le_iff_toNat_le] at halpha
      rcases halpha with (hupper | hlower) | hdigit
      · exact .inr (.inl hupper)
      · exact .inr (.inr hlower)
      · exact .inl hdigit
    refine ⟨by omega, by omega, ?_, ?_, ?_⟩
    · rintro rfl
      exact absurd halpha (by decide)
    · rintro rfl
      exact absurd halpha (by decide)
    · rintro rfl
      exact absurd halpha (by decide)
  · decide
  · decide
  · decide

theorem setPair_eq : setPair type token expires = "Authorization=\"Bearer ".toList ++ token.text ++ ['"'] := by
  have hfront : ';' ∉ "Authorization=\"Bearer ".toList ++ token.text ++ ['"'] := by
    intro hmem
    rcases List.mem_append.mp hmem with hmem | hmem
    · rcases List.mem_append.mp hmem with hmem | hmem
      · exact absurd hmem (by decide)
      · exact (token.characters ';' hmem).2.2.1 rfl
    · exact absurd hmem (by decide)
  unfold setPair CookieType.assign
  rw [List.append_assoc _ (httpDate expires), show "; expires=".toList = ';' :: " expires=".toList from rfl,
    List.cons_append, List.splitOn_append_cons_self_of_not_mem hfront]
  rfl

theorem setPair_sendable : Sendable (setPair type token expires) := by
  rw [setPair_eq]
  refine ⟨fun c hc => ?_, by simp, by rw [List.getLast?_concat]; decide⟩
  rcases List.mem_append.mp hc with hc | hc
  · rcases List.mem_append.mp hc with hc | hc
    · fin_cases hc <;> decide
    · obtain ⟨hlow, hhigh, hne, -⟩ := token.characters c hc
      exact ⟨hlow.le, hhigh, hne⟩
  · obtain rfl := List.mem_singleton.mp hc
    decide

theorem trimQuotes_value : trimQuotes ('"' :: ("Bearer ".toList ++ token.text ++ ['"'])) = "Bearer ".toList ++ token.text := by
  unfold trimQuotes
  rw [List.dropWhile_cons_of_pos (by decide)]
  have hfront : ("Bearer ".toList ++ token.text ++ ['"']).dropWhile (· == '"') =
      "Bearer ".toList ++ token.text ++ ['"'] := rfl
  rw [hfront, List.rdropWhile_concat_pos _ _ _ (by decide), List.rdropWhile_eq_self_iff]
  intro hne hquote
  have hlast := List.getLast_mem hne
  rw [beq_iff_eq.mp hquote] at hlast
  rcases List.mem_append.mp hlast with hmem | hmem
  · exact absurd hmem (by decide)
  · exact (token.characters '"' hmem).2.2.2.1 rfl

theorem unescape_of_plain : ∀ {text : Text}, '\\' ∉ text → unescape text = text
  | [], _ => rfl
  | c :: rest, h => by
    obtain ⟨hc, hrest⟩ := not_or.mp (mt List.mem_cons.mpr h)
    rw [unescape, unescape_of_plain hrest]
    intro tail hescape
    exact absurd hescape.symm hc

theorem scanPairs_setPair {part : Text} (hpart : trim part = setPair type token expires) (rest : List Text) :
    scanPairs (part :: rest) = .found ("Bearer ".toList ++ token.text) := by
  have hvalue : setPair type token expires =
      "Authorization".toList ++ '=' :: ('"' :: ("Bearer ".toList ++ token.text ++ ['"'])) := by
    rw [setPair_eq]
    rfl
  have hplain : '\\' ∉ "Bearer ".toList ++ token.text := by
    intro hmem
    rcases List.mem_append.mp hmem with hmem | hmem
    · exact absurd hmem (by decide)
    · exact (token.characters _ hmem).2.2.2.2 rfl
  rw [scanPairs, hpart, hvalue, splitOnce_append _ (by decide)]
  dsimp only
  rw [if_pos rfl, trimQuotes_value, unescape_of_plain hplain]

theorem scanLines_login (before after : List Neighbour) (later : List HeaderValue) :
    ((∀ neighbour ∈ before, neighbour.Named) →
      scanLines (loginLine before after type token expires :: later) = .found ("Bearer ".toList ++ token.text)) ∧
    (¬ (∀ neighbour ∈ before, neighbour.Named) →
      scanLines (loginLine before after type token expires :: later) = .stopped) := by
  let texts := before.map (·.pair.text) ++ setPair type token expires :: after.map (·.pair.text)
  have hsendable : ∀ pair ∈ texts, Sendable pair := by
    intro pair hpair
    rcases List.mem_append.mp hpair with hpair | hpair
    · obtain ⟨neighbour, -, rfl⟩ := List.mem_map.mp hpair
      exact neighbour.sendable
    · rcases List.mem_cons.mp hpair with rfl | hpair
      · exact setPair_sendable type token expires
      · obtain ⟨neighbour, -, rfl⟩ := List.mem_map.mp hpair
        exact neighbour.sendable
  have hne : texts ≠ [] := by simp [texts]
  obtain ⟨front, rest, hspaced, hfront, hrest⟩ := List.map_eq_append_iff.mp (map_trim_spaced hsendable)
  obtain ⟨part, back, rfl, hpart, -⟩ := List.map_eq_cons_iff.mp hrest
  have hscan : scanLines (loginLine before after type token expires :: later) =
      match scanPairs (front ++ part :: back) with
      | .passed => scanLines later
      | scan => scan := by
    rw [← hspaced, ← splitOn_spaced hne hsendable, scanLines, loginLine, toStr_joined hsendable]
  obtain ⟨hall, hsome⟩ := scanPairs_append (part :: back) hfront
  constructor
  · intro hnamed
    rw [hscan, hall hnamed, scanPairs_setPair type token expires hpart]
  · intro hnameless
    rw [hscan, hsome hnameless]

theorem scanLines_append (rest : List HeaderValue) : ∀ earlier : List Line,
    ((∀ line ∈ earlier, ∀ neighbour ∈ line.pairs, neighbour.Named) →
      scanLines (earlier.map Line.value ++ rest) = scanLines rest) ∧
    (¬ (∀ line ∈ earlier, ∀ neighbour ∈ line.pairs, neighbour.Named) →
      scanLines (earlier.map Line.value ++ rest) = .stopped)
  | [] => ⟨fun _ => rfl, fun h => absurd (by simp) h⟩
  | line :: earlier => by
    have hsendable : ∀ pair ∈ line.pairs.map (·.pair.text), Sendable pair := by
      intro pair hpair
      obtain ⟨neighbour, -, rfl⟩ := List.mem_map.mp hpair
      exact neighbour.sendable
    have hscan : scanLines ((line :: earlier).map Line.value ++ rest) =
        match scanPairs (spaced (line.pairs.map (·.pair.text)) ++ []) with
        | .passed => scanLines (earlier.map Line.value ++ rest)
        | scan => scan := by
      rw [List.append_nil, ← splitOn_spaced (by simp [Line.pairs]) hsendable, List.map_cons, List.cons_append,
        scanLines, Line.value, toStr_joined hsendable]
    obtain ⟨hall, hsome⟩ := scanPairs_append [] (map_trim_spaced hsendable)
    obtain ⟨hallLater, hsomeLater⟩ := scanLines_append rest earlier
    rw [List.forall_mem_cons, hscan]
    by_cases hnamed : ∀ neighbour ∈ line.pairs, neighbour.Named
    · rw [hall hnamed]
      exact ⟨fun h => hallLater h.2, fun h => hsomeLater fun hlater => h ⟨hnamed, hlater⟩⟩
    · rw [hsome hnamed]
      exact ⟨fun h => absurd h.1 hnamed, fun _ => rfl⟩

/-- **The login's token is found** exactly if every pair in front of its own has a name. -/
theorem bearerToken_iff (earlier : List Line) (before after : List Neighbour) (later : List Line) :
    bearerToken ⟨[], earlier.map Line.value ++
        loginLine before after type token expires :: later.map Line.value⟩ = some token.text ↔
      (∀ line ∈ earlier, ∀ neighbour ∈ line.pairs, neighbour.Named) ∧ ∀ neighbour ∈ before, neighbour.Named := by
  have hbearer : bearerToken ⟨[], earlier.map Line.value ++
      loginLine before after type token expires :: later.map Line.value⟩ =
        (authorizationCookie ⟨[], earlier.map Line.value ++
          loginLine before after type token expires :: later.map Line.value⟩).bind fun value =>
            if "Bearer ".toList.isPrefixOf value then some (value.drop 7) else none := rfl
  obtain ⟨hearlier, hstopped⟩ := scanLines_append
    (loginLine before after type token expires :: later.map Line.value) earlier
  obtain ⟨hfound, hbefore⟩ := scanLines_login type token expires before after (later.map Line.value)
  have hnone : (none : Option Text) ≠ some token.text := by simp
  rw [hbearer, authorizationCookie]
  by_cases hlines : ∀ line ∈ earlier, ∀ neighbour ∈ line.pairs, neighbour.Named
  · rw [hearlier hlines]
    by_cases hnamed : ∀ neighbour ∈ before, neighbour.Named
    · rw [hfound hnamed]
      exact iff_of_true rfl ⟨hlines, hnamed⟩
    · rw [hbefore hnamed]
      exact iff_of_false hnone fun h => hnamed h.2
  · rw [hstopped hlines]
    exact iff_of_false hnone fun h => hlines h.1

end Login

theorem forall_mem_of_all {α : Type} {P : α → Prop} [DecidablePred P] {xs : List α}
    (h : (xs.all fun x => decide (P x)) = true) : ∀ x ∈ xs, P x :=
  fun x hx => of_decide_eq_true (List.all_eq_true.mp h x hx)

def threeParts : Token where
  text := "a.b.c".toList
  alphabet := forall_mem_of_all (by decide)

/-- A cookie that is set without a name. -/
def darkMode : Neighbour where
  pair := .nameless "dark".toList
  sent := ⟨by decide, by decide,
    ⟨forall_mem_of_all (by decide), by decide, by decide⟩⟩
  other := by simp

/-- **A value without a name** in front of the login's pair ends the scan. -/
theorem nameless_ends_scan : ¬ ∀ (type : CookieType) (token : Token) (expires : Int) (earlier : List Line)
    (before after : List Neighbour) (later : List Line),
      bearerToken ⟨[], earlier.map Line.value ++
        loginLine before after type token expires :: later.map Line.value⟩ = some token.text := by
  intro h
  have hfound := h .secure threeParts 0 [] [darkMode] [] []
  exact absurd hfound (by decide)

end Ceres.Server.Cookie
