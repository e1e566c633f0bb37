/-
  File:      Ceres/Console/Association.lean
  Subject:   PINNING IN THE CONSOLE (`console/app/workspace/association.ts`: `pin`, `pinWidget`,
             `pinWidgetAddresses`; `console/app/workspace/models.ts`: `resolveWidgetAddress`), against the server.

  Both languages walk a payload alike, so what differs is one text: the console trims a selector and Python does
  not, and Python admits a newline at the end.

  * `consolePin`, `serverPin` -- what is done to one text; `pins_agree_iff`;
  * `resolveWidgetAddress`, `serverResolve` -- what a text means on a placement;
  * **`pinning_keeps_targets_iff`** -- on which payloads a move keeps every target, twice is once, and the two
    languages make the same.
-/
import Ceres.Console.Selector
import Ceres.Server.Pin

namespace Ceres.Console.Association

open Ceres.Library
open Ceres.Data
open Ceres.Database (base Modifier Absolute absoluteSegment absoluteSegment_absolute validSegment validSegment_cases
  validAddress validPath base_cases not_mem_of_validPath validPath_characters mem_intercalate
  isPrefixOf_path_append)
open Ceres.Address (REGEX validated map_absolute normalize normalize_of_absolute validSegment_normalize pushAccepts
  pushAccepts_iff mem_REGEX_iff bar_not_mem_of_validSegment newline_not_mem_of_pushAccepts mapM_eq_some
  intercalate_cons)
open Ceres.Server.Redaction (beforeColons)
open Ceres.Server.Pin
open Ceres.Console.Selector

/-! ## 1. The console's functions -/

/-- Each segment that is exactly `all` written `:all`. -/
def normalized (value : Text) : Text := ['|'].intercalate ((value.splitOn '|').map normalize)

/-- `pin` -/
def consolePin (scope value : Text) : Text :=
  if value = [] then value
  else ((AddressSelector.parse (normalized value)).bind fun selector => asAbsolute selector (some scope)).getD value

/-- `resolveWidgetAddress`; `none` is `null` for an empty text, and an `Error` for another. -/
def resolveWidgetAddress (value scope : Text) : Option Text :=
  if value = [] then if scope = ['~'] then none else AddressSelector.parse scope
  else (AddressSelector.parse value).bind fun selector => asAbsolute selector (some scope)

/-- `AddressSelector(value).as_absolute(scope)` -/
def serverResolve (value scope : Text) : Option Text :=
  (validated REGEX value).bind fun selector => Ceres.Address.AddressSelector.asAbsolute selector (some scope)

/-! ## 2. Trimming and normalizing -/

theorem not_contains_bar : whitespace.contains '|' = false := by decide

theorem dropWhile_append_bar {front rest : Text} (h : ∀ c ∈ rest.head?, whitespace.contains c = false) :
    (front ++ rest).dropWhile whitespace.contains = front.dropWhile whitespace.contains ++ rest := by
  rw [List.dropWhile_append]
  by_cases hempty : (front.dropWhile whitespace.contains).isEmpty = true
  · rw [if_pos hempty, List.isEmpty_iff.mp hempty, List.nil_append, List.dropWhile_eq_self_iff]
    intro hlength
    rw [h _ (List.head?_eq_getElem? ▸ List.getElem?_eq_getElem hlength)]
    exact Bool.false_ne_true
  · rw [if_neg hempty]

/-- What is dropped in front of a selector is dropped in front of its first segment. -/
theorem trimLeft_intercalate (segment : Text) (segments : List Text) :
    (['|'].intercalate (segment :: segments)).dropWhile whitespace.contains =
      ['|'].intercalate (segment.dropWhile whitespace.contains :: segments) := by
  rw [intercalate_cons, intercalate_cons]
  refine dropWhile_append_bar ?_
  cases segments with
  | nil => nofun
  | cons next segments =>
    rintro c hc
    cases hc
    exact not_contains_bar

theorem intercalate_concat (segment : Text) : ∀ segments : List Text,
    ['|'].intercalate (segments ++ [segment]) = (segments.map (· ++ ['|'])).flatten ++ segment
  | [] => by simp
  | first :: segments => by
      rw [List.cons_append, List.map_cons, List.flatten_cons, List.append_assoc,
        ← intercalate_concat segment segments]
      cases segments with
      | nil => simp
      | cons next segments => simp

/-- What is dropped behind it is dropped behind its last. -/
theorem trimRight_intercalate (segments : List Text) (segment : Text) :
    (['|'].intercalate (segments ++ [segment])).rdropWhile whitespace.contains =
      ['|'].intercalate (segments ++ [segment.rdropWhile whitespace.contains]) := by
  rw [intercalate_concat, intercalate_concat, List.rdropWhile, List.reverse_append, dropWhile_append_bar,
    List.reverse_append, List.reverse_reverse, List.rdropWhile]
  intro c hc
  rcases List.eq_nil_or_concat segments with rfl | ⟨front, last, rfl⟩
  · cases hc
  · have hbar : c = '|' := by simpa using hc.symm
    rw [hbar]
    exact not_contains_bar

theorem accepts_intercalate_iff {segments : List Text} (hne : segments ≠ [])
    (hbar : ∀ segment ∈ segments, '|' ∉ segment) :
    pushAccepts (['|'].intercalate segments) ↔ ∀ segment ∈ segments, validSegment segment = true := by
  rw [pushAccepts, List.splitOn_intercalate '|' hbar hne, List.all_eq_true]

/-- The ends of a segment do not tell `all` from `:all`. -/
theorem valid_trimmed_normalize_iff (segment : Text) (cut : Text → Text) (hall : validSegment (cut "all".toList) = true)
    (hcolon : validSegment (cut ":all".toList) = true) :
    validSegment (cut (normalize segment)) = true ↔ validSegment (cut segment) = true := by
  unfold Ceres.Address.normalize
  by_cases h : segment = "all".toList
  · rw [if_pos h, h]
    exact iff_of_true hcolon hall
  · rw [if_neg h]

/-- **Whether the trimmed text is a selector** shows on its segments. -/
theorem accepts_trim_iff {segments : List Text} (hne : segments ≠ []) (hbar : ∀ segment ∈ segments, '|' ∉ segment) :
    pushAccepts (Selector.trim (['|'].intercalate (segments.map normalize))) ↔ pushAccepts (Selector.trim (['|'].intercalate segments)) := by
  obtain ⟨first, rest, rfl⟩ := List.exists_cons_of_ne_nil hne
  have hnormal : ∀ segment : Text, '|' ∉ segment → '|' ∉ normalize segment := by
    intro segment hsegment
    unfold Ceres.Address.normalize
    split
    · decide
    · exact hsegment
  have hleft : ∀ segment : Text, '|' ∉ segment → '|' ∉ segment.dropWhile whitespace.contains :=
    fun segment h hmem => h ((List.dropWhile_sublist _).subset hmem)
  have hright : ∀ segment : Text, '|' ∉ segment → '|' ∉ segment.rdropWhile whitespace.contains :=
    fun segment h hmem => h ((List.rdropWhile_prefix _ _).subset hmem)
  unfold Selector.trim
  rw [List.map_cons, trimLeft_intercalate, trimLeft_intercalate]
  rcases List.eq_nil_or_concat' rest with rfl | ⟨middle, last, rfl⟩
  · have hfirst : '|' ∉ first := hbar first List.mem_cons_self
    have hcut := fun segment => trimRight_intercalate [] segment
    simp only [List.nil_append] at hcut
    rw [List.map_nil, hcut, hcut, accepts_intercalate_iff (List.cons_ne_nil _ _)
      (by simpa using hright _ (hleft _ (hnormal _ hfirst))),
      accepts_intercalate_iff (List.cons_ne_nil _ _) (by simpa using hright _ (hleft _ hfirst))]
    simp only [List.mem_singleton, forall_eq]
    exact valid_trimmed_normalize_iff first
      (fun segment => (segment.dropWhile whitespace.contains).rdropWhile whitespace.contains)
      (by decide) (by decide)
  · have hbars := hbar
    rw [List.forall_mem_cons, List.forall_mem_append] at hbars
    obtain ⟨hfirst, hmiddle, hlast⟩ := hbars
    have hlast : '|' ∉ last := hlast last List.mem_cons_self
    rw [List.map_append, List.map_singleton, ← List.cons_append, ← List.cons_append, trimRight_intercalate,
      trimRight_intercalate, accepts_intercalate_iff (by simp), accepts_intercalate_iff (by simp)]
    · simp only [List.cons_append, List.forall_mem_cons, List.forall_mem_append, List.forall_mem_map,
        List.not_mem_nil, false_imp_iff, implies_true, and_true]
      refine and_congr ?_ (and_congr ?_ ?_)
      · exact valid_trimmed_normalize_iff first (·.dropWhile whitespace.contains) (by decide)
          (by decide)
      · refine forall_congr' fun segment => forall_congr' fun _ => ?_
        exact valid_trimmed_normalize_iff segment id (by decide) (by decide)
      · exact valid_trimmed_normalize_iff last (·.rdropWhile whitespace.contains) (by decide)
          (by decide)
    · simp only [List.cons_append, List.forall_mem_cons, List.forall_mem_append]
      exact ⟨hleft _ hfirst, hmiddle, hright _ hlast, by simp⟩
    · simp only [List.cons_append, List.forall_mem_cons, List.forall_mem_append, List.forall_mem_map]
      exact ⟨hleft _ (hnormal _ hfirst), fun segment hmem => hnormal _ (hmiddle segment hmem),
        hright _ (hnormal _ hlast), by simp⟩

theorem parse_isSome_iff {text : Text} : (AddressSelector.parse text).isSome = true ↔ pushAccepts (Selector.trim text) := by
  unfold AddressSelector.parse validated
  rw [← mem_addressSelectorRegex_iff]
  by_cases h : Selector.trim text ∈ addressSelectorRegex.matches'
  · rw [if_pos h]
    exact iff_of_true rfl h
  · rw [if_neg h]
    exact iff_of_false Bool.false_ne_true h

/-- **Normalizing does not make a selector of a text**, nor the other way round. -/
theorem parse_normalized_isSome_iff (value : Text) :
    (AddressSelector.parse (normalized value)).isSome = true ↔ (AddressSelector.parse value).isSome = true := by
  have htrim := @accepts_trim_iff (value.splitOn '|') (List.splitOn_ne_nil '|' value)
    (fun segment => not_mem_of_mem_splitOn)
  rw [List.intercalate_splitOn] at htrim
  rw [parse_isSome_iff, parse_isSome_iff]
  exact htrim

/-! ## 3. What Python resolves -/

/-- A segment that names its base itself. -/
def anchored (segment : Text) : Bool := ['~'].isPrefixOf segment || ['@'].isPrefixOf segment

variable {segment : Text}

theorem anchored_of_absolute (h : Absolute segment) : anchored segment = true := by
  cases h <;> rfl

theorem anchored_append (hne : segment ≠ []) (rest : Text) : anchored (segment ++ rest) = anchored segment := by
  obtain ⟨c, tail, rfl⟩ := List.exists_cons_of_ne_nil hne
  rfl

theorem absoluteSegment_of_anchored (h : anchored segment = true) (base : Text) :
    absoluteSegment segment base = segment := by
  have hall : segment ≠ "all".toList := by
    rintro rfl
    exact absurd h (by decide)
  have hcolon : [':'].isPrefixOf segment = false := by
    cases segment with
    | nil => rfl
    | cons c segment =>
      by_contra hc
      have hc : ':' = c := by simpa using hc
      rw [← hc] at h
      exact absurd h Bool.false_ne_true
  unfold anchored at h
  unfold absoluteSegment
  simp only [if_neg hall, hcolon, h, Bool.false_eq_true, if_false, if_true]

theorem resolve_append (hne : segment ≠ []) (base rest : Text) :
    resolve base (segment ++ rest) = resolve base segment ++ rest := by
  obtain ⟨c, tail, rfl⟩ := List.exists_cons_of_ne_nil hne
  unfold resolve
  rw [List.cons_append]
  simp only [List.isPrefixOf_cons_cons, List.isPrefixOf_nil_left, Bool.and_true, List.cons_ne_nil, if_false]
  split_ifs <;> simp

/-- A segment as the Python expression admits it, the newline at the end of the last among them. -/
def Admitted (segment : Text) : Prop :=
  ∃ front, validSegment front = true ∧ (segment = front ∨ segment = front ++ ['\n'])

theorem admitted_mem_REGEX (h : Admitted segment) : segment ∈ REGEX.matches' := by
  obtain ⟨front, hfront, hsegment⟩ := h
  have haccepts : pushAccepts front := by
    refine pushAccepts_iff.mpr ⟨[front], by simp, by simpa using hfront, by simp⟩
  rw [mem_REGEX_iff]
  rcases hsegment with rfl | rfl
  · exact .inl haccepts
  · exact .inr ⟨front, haccepts, rfl⟩

theorem bar_not_mem_of_admitted (h : Admitted segment) : '|' ∉ segment := by
  obtain ⟨front, hfront, rfl | rfl⟩ := h
  · exact bar_not_mem_of_validSegment hfront
  · simp [bar_not_mem_of_validSegment hfront]

theorem admitted_normalize (h : Admitted segment) : Admitted (normalize segment) := by
  obtain ⟨front, hfront, rfl | rfl⟩ := h
  · exact ⟨normalize segment, validSegment_normalize hfront, .inl rfl⟩
  · unfold Ceres.Address.normalize
    split
    · exact ⟨":all".toList, by decide, .inl rfl⟩
    · exact ⟨front, hfront, .inr rfl⟩

section Server

variable {root : Option Text} (hr : ∀ r ∈ root, validAddress r = true)

include hr

/-- **What a segment resolves to** names its base, and is admitted again. -/
theorem absoluteSegment_admitted {segment : Text} (h : Admitted segment) :
    Admitted (absoluteSegment segment (base root)) ∧ anchored (absoluteSegment segment (base root)) = true := by
  obtain ⟨front, hfront, hsegment⟩ := h
  rcases hsegment with rfl | rfl
  · have habsolute := absoluteSegment_absolute hfront hr
    exact ⟨⟨_, habsolute.validSegment, .inl rfl⟩, anchored_of_absolute habsolute⟩
  · have hne : front ≠ [] := ne_nil_of_validSegment hfront
    have hall : front ++ ['\n'] ≠ "all".toList := by
      intro h
      have hmem : '\n' ∈ "all".toList := by
        rw [← h]
        simp
      exact absurd hmem (by decide)
    have habsolute : Absolute (resolve (base root) front) :=
      @resolve_absolute [front] root (by simpa using hfront) hr front List.mem_cons_self
    rw [← resolve_eq_absoluteSegment (by simp) hall, resolve_append hne]
    refine ⟨⟨_, habsolute.validSegment, .inr rfl⟩, ?_⟩
    rw [anchored_append (ne_nil_of_validSegment habsolute.validSegment)]
    exact anchored_of_absolute habsolute

omit hr in
/-- **Python resolves a selector segment by segment.** -/
theorem asAbsolute_join {segments : List Text} (hne : segments ≠ []) (h : ∀ segment ∈ segments, Admitted segment) :
    Ceres.Address.AddressSelector.asAbsolute (['|'].intercalate segments) root =
      validated REGEX (['|'].intercalate (segments.map fun segment => absoluteSegment segment (base root))) := by
  have hsegments : Ceres.Address.AddressSelector.normalizedSegments (['|'].intercalate segments) =
      some (segments.map normalize) := by
    rw [Ceres.Address.AddressSelector.normalizedSegments,
      List.splitOn_intercalate '|' (fun segment hmem => bar_not_mem_of_admitted (h segment hmem)) hne]
    refine mapM_eq_some fun segment hmem => ?_
    exact if_pos (admitted_mem_REGEX (admitted_normalize (h segment hmem)))
  unfold Ceres.Address.AddressSelector.asAbsolute
  rw [hsegments]
  exact congrArg (fun parts => validated REGEX (['|'].intercalate parts)) (map_absolute segments (base root))

omit hr in
theorem segments_of_mem_REGEX {value : Text} (h : value ∈ REGEX.matches') :
    ∃ segments, segments ≠ [] ∧ (∀ segment ∈ segments, Admitted segment) ∧ value = ['|'].intercalate segments ∧
      ((∀ segment ∈ segments, validSegment segment = true) ∨
        ∃ front last, segments = front ++ [last ++ ['\n']] ∧ validSegment last = true ∧
          (∀ segment ∈ front, validSegment segment = true)) := by
  rcases mem_REGEX_iff.mp h with haccepts | ⟨front, haccepts, rfl⟩
  · obtain ⟨segments, hne, hvalid, rfl⟩ := pushAccepts_iff.mp haccepts
    exact ⟨segments, hne, fun segment hmem => ⟨segment, hvalid segment hmem, .inl rfl⟩, rfl, .inl hvalid⟩
  · obtain ⟨segments, hne, hvalid, rfl⟩ := pushAccepts_iff.mp haccepts
    rcases List.eq_nil_or_concat' segments with rfl | ⟨first, last, rfl⟩
    · exact absurd rfl hne
    · rw [List.forall_mem_append, List.forall_mem_singleton] at hvalid
      refine ⟨first ++ [last ++ ['\n']], by simp, ?_, ?_, .inr ⟨first, last, rfl, hvalid.2, hvalid.1⟩⟩
      · rw [List.forall_mem_append, List.forall_mem_singleton]
        exact ⟨fun segment hmem => ⟨segment, hvalid.1 segment hmem, .inl rfl⟩, last, hvalid.2, .inr rfl⟩
      · rw [intercalate_concat, intercalate_concat, List.append_assoc]

/-- **Resolving twice is resolving once**, on whatever placement. -/
theorem asAbsolute_twice {value resolved : Text} (hvalue : value ∈ REGEX.matches')
    (h : Ceres.Address.AddressSelector.asAbsolute value root = some resolved) (other : Option Text) :
    resolved ∈ REGEX.matches' ∧ Ceres.Address.AddressSelector.asAbsolute resolved other = some resolved := by
  obtain ⟨segments, hne, hadmitted, rfl, -⟩ := segments_of_mem_REGEX hvalue
  rw [asAbsolute_join hne hadmitted] at h
  have hresolved : ∀ segment ∈ segments.map fun segment => absoluteSegment segment (base root),
      Admitted segment ∧ anchored segment = true := by
    intro segment hmem
    obtain ⟨source, hsource, rfl⟩ := List.mem_map.mp hmem
    exact absoluteSegment_admitted hr (hadmitted source hsource)
  have hsame : (segments.map fun segment => absoluteSegment segment (base root)).map
      (fun segment => absoluteSegment segment (base other)) =
        segments.map fun segment => absoluteSegment segment (base root) :=
    (List.map_congr_left fun segment hmem => absoluteSegment_of_anchored (hresolved segment hmem).2 _).trans
      (List.map_id _)
  unfold validated at h
  by_cases hmem : ['|'].intercalate (segments.map fun segment => absoluteSegment segment (base root)) ∈ REGEX.matches'
  · rw [if_pos hmem] at h
    cases h
    refine ⟨hmem, ?_⟩
    rw [asAbsolute_join (by simpa using hne) (fun segment hs => (hresolved segment hs).1), hsame]
    exact if_pos hmem
  · rw [if_neg hmem] at h
    cases h

end Server

/-! ## 4. What is done to one text -/

section Pins

variable {scope : Text} (hscope : validAddress scope = true)

theorem serverPin_eq (value : Text) : serverPin scope value = (serverResolve value scope).getD value := by
  unfold serverPin serverResolve
  by_cases hnil : value = []
  · rw [if_pos hnil, hnil]
    have hnone : ([] : Text) ∉ REGEX.matches' := by decide
    rw [validated, if_neg hnone]
    rfl
  · rw [if_neg hnil]

theorem consolePin_eq (value : Text) : consolePin scope value =
    ((AddressSelector.parse (normalized value)).bind fun selector => asAbsolute selector (some scope)).getD value := by
  unfold consolePin
  by_cases hnil : value = []
  · rw [if_pos hnil, hnil]
    have hnone : AddressSelector.parse (normalized []) = none := by decide
    rw [hnone]
    rfl
  · rw [if_neg hnil]

variable {value : Text}

theorem serverResolve_of_mem (h : value ∈ REGEX.matches') :
    serverResolve value scope = Ceres.Address.AddressSelector.asAbsolute value (some scope) := by
  rw [serverResolve, validated, if_pos h, Option.bind_some]

theorem serverResolve_of_not_mem (h : value ∉ REGEX.matches') : serverResolve value scope = none := by
  rw [serverResolve, validated, if_neg h, Option.bind_none]

theorem asAbsolute_mem {value resolved : Text} {root : Option Text}
    (h : asAbsolute value root = some resolved) : pushAccepts resolved :=
  (pushAccepts_of_parse h).2

/-- What Python accepts is a selector for the console, once it is trimmed. -/
theorem parse_of_mem_REGEX (h : value ∈ REGEX.matches') :
    ∃ selector, AddressSelector.parse value = some selector ∧ pushAccepts selector ∧
      (value = selector ∨ value = selector ++ ['\n']) := by
  have hkept : ∀ {selector : Text}, pushAccepts selector → ∀ c ∈ selector, whitespace.contains c = false := by
    intro selector haccepts
    obtain ⟨segments, hne, hvalid, rfl⟩ := pushAccepts_iff.mp haccepts
    exact not_whitespace_of_segments hvalid
  have hparse : ∀ {text selector : Text}, Selector.trim text = selector → pushAccepts selector →
      AddressSelector.parse text = some selector := by
    intro text selector htrim haccepts
    rw [AddressSelector.parse, htrim, validated, if_pos (mem_addressSelectorRegex_iff.mpr haccepts)]
  rcases mem_REGEX_iff.mp h with haccepts | ⟨front, haccepts, rfl⟩
  · exact ⟨value, hparse (trim_eq_self (hkept haccepts)) haccepts, haccepts, .inl rfl⟩
  · refine ⟨front, hparse ?_ haccepts, haccepts, .inr rfl⟩
    have hnewline : whitespace.contains '\n' = true := by decide
    obtain ⟨c, tail, rfl⟩ := List.exists_cons_of_ne_nil (fun hnil : front = [] => by
      rw [hnil] at haccepts
      exact absurd haccepts (by decide))
    have hc : ¬ whitespace.contains c = true := by
      rw [hkept haccepts c List.mem_cons_self]
      exact Bool.false_ne_true
    have htrim := trim_eq_self (hkept haccepts)
    unfold Selector.trim at htrim ⊢
    rw [List.dropWhile_cons_of_neg hc] at htrim
    rw [List.cons_append, List.dropWhile_cons_of_neg hc, ← List.cons_append,
      List.rdropWhile_concat_pos _ _ _ hnewline]
    exact htrim

/-- **What the server makes of a text** is the text, or what Python admits. -/
theorem serverPin_cases (value : Text) : serverPin scope value = value ∨
    (value ∈ REGEX.matches' ∧ Ceres.Address.AddressSelector.asAbsolute value (some scope) = some (serverPin scope value)) := by
  rw [serverPin_eq]
  by_cases h : value ∈ REGEX.matches'
  · rw [serverResolve_of_mem h]
    cases hresolved : Ceres.Address.AddressSelector.asAbsolute value (some scope) with
    | none => exact .inl rfl
    | some resolved => exact .inr ⟨h, rfl⟩
  · rw [serverResolve_of_not_mem h]
    exact .inl rfl

include hscope in
theorem serverPin_twice (value : Text) : serverPin scope (serverPin scope value) = serverPin scope value := by
  rcases serverPin_cases value with h | ⟨hmem, hresolved⟩
  · rw [h, h]
  · have hroot : ∀ r ∈ some scope, validAddress r = true := by
      rintro r ⟨⟩
      exact hscope
    obtain ⟨hadmitted, htwice⟩ := asAbsolute_twice hroot hmem hresolved (some scope)
    rw [serverPin_eq (serverPin scope value), serverResolve_of_mem hadmitted, htwice, Option.getD_some]

/-! ## 5. Addresses in front of a `::` -/

/-- A text that the search for `::` runs through. -/
def Passes (front : Text) : Prop :=
  ∀ rest, beforeColons (front ++ rest) = front ++ beforeColons rest ∧ afterColons (front ++ rest) = afterColons rest

theorem passes_nil : Passes [] := fun _ => ⟨rfl, rfl⟩

theorem passes_append {front next : Text} (hfront : Passes front) (hnext : Passes next) : Passes (front ++ next) := by
  intro rest
  rw [List.append_assoc]
  exact ⟨by rw [(hfront _).1, (hnext rest).1, List.append_assoc], by rw [(hfront _).2, (hnext rest).2]⟩

theorem passes_cons {c : Char} (hc : c ≠ ':') {front : Text} (h : Passes front) : Passes (c :: front) := by
  intro rest
  rw [List.cons_append, beforeColons, afterColons, (h rest).1, (h rest).2]
  · exact ⟨rfl, rfl⟩
  · rintro tail heq -
    exact hc heq
  · rintro tail heq -
    exact hc heq

theorem passes_of_not_mem : ∀ {front : Text}, ':' ∉ front → Passes front
  | [], _ => passes_nil
  | c :: front, h => by
      rw [List.mem_cons, not_or] at h
      exact passes_cons (Ne.symm h.1) (passes_of_not_mem h.2)

theorem passes_modifier (m : Modifier) : Passes (':' :: m.text) := by
  intro rest
  cases m <;> exact ⟨rfl, rfl⟩

theorem passes_of_validSegment {segment : Text} (h : validSegment segment = true) : Passes segment := by
  have hpath : ∀ {path : Text}, validPath path = true → Passes path :=
    fun hp => passes_of_not_mem (not_mem_of_validPath hp (by decide))
  have hanchor : ∀ {path : Text}, validPath path = true → Passes ('@' :: path) :=
    fun hp => passes_cons (by decide) (hpath hp)
  rcases validSegment_cases h with h | ⟨m, rfl⟩ | hp | ⟨path, m, rfl, hp⟩
  · cases h with
    | engine => exact passes_of_not_mem (by decide)
    | component path hp => exact hanchor hp
    | engineAll => exact passes_cons (by decide) (passes_modifier .all)
    | engineDescendants => exact passes_cons (by decide) (passes_modifier .descendants)
    | everything m => exact passes_cons (by decide) (passes_modifier m)
    | under path m hp => exact passes_append (hanchor hp) (passes_modifier m)
  · exact passes_modifier m
  · exact hpath hp
  · exact passes_append (hpath hp) (passes_modifier m)

theorem passes_admitted {segment : Text} (h : Admitted segment) : Passes segment := by
  obtain ⟨front, hfront, rfl | rfl⟩ := h
  · exact passes_of_validSegment hfront
  · exact passes_append (passes_of_validSegment hfront) (passes_of_not_mem (by decide))

theorem passes_intercalate : ∀ {segments : List Text}, (∀ segment ∈ segments, Passes segment) →
    Passes (['|'].intercalate segments)
  | [], _ => passes_nil
  | [segment], h => by
      rw [List.intercalate_singleton]
      exact h segment List.mem_cons_self
  | segment :: next :: segments, h => by
      rw [List.forall_mem_cons] at h
      rw [List.intercalate_cons_cons]
      exact passes_append (passes_append h.1 (passes_of_not_mem (by decide))) (passes_intercalate h.2)

theorem passes_of_mem_REGEX (h : value ∈ REGEX.matches') : Passes value := by
  obtain ⟨segments, -, hadmitted, rfl, -⟩ := segments_of_mem_REGEX h
  exact passes_intercalate fun segment hmem => passes_admitted (hadmitted segment hmem)

theorem colons_split : ∀ {query rest : Text}, afterColons query = some rest →
    query = beforeColons query ++ ':' :: ':' :: rest := by
  intro query
  induction query using afterColons.induct with
  | case1 tail =>
    intro rest h
    rw [afterColons] at h
    cases h
    rfl
  | case2 c tail hcolons ih =>
    intro rest h
    rw [afterColons] at h
    · rw [beforeColons, List.cons_append, ← ih h]
      exact hcolons
    · exact hcolons
  | case3 => nofun

/-- **A function that leaves a text or makes a selector of it** keeps the first `::` of a query. -/
theorem addressed_of_cases {pin : Text → Text} (h : ∀ value, pin value = value ∨ pin value ∈ REGEX.matches') :
    Addressed pin := by
  intro query rest hrest
  rcases h (beforeColons query) with hsame | hmem
  · rw [hsame, ← colons_split hrest]
    exact ⟨rfl, hrest⟩
  · obtain ⟨hbefore, hafter⟩ := passes_of_mem_REGEX hmem (':' :: ':' :: rest)
    rw [hbefore, hafter]
    exact ⟨List.append_nil _, rfl⟩

theorem addressed_serverPin (hscope : validAddress scope = true) : Addressed (serverPin scope) := by
  refine addressed_of_cases fun value => (serverPin_cases value).imp_right fun h => ?_
  have hroot : ∀ r ∈ some scope, validAddress r = true := by
    rintro r ⟨⟩
    exact hscope
  exact (asAbsolute_twice hroot h.1 h.2 none).1

theorem addressed_consolePin : Addressed (consolePin scope) := by
  refine addressed_of_cases fun value => ?_
  rw [consolePin_eq]
  cases hresolved : (AddressSelector.parse (normalized value)).bind fun selector => asAbsolute selector (some scope) with
  | none => exact .inl rfl
  | some resolved =>
    obtain ⟨selector, -, hselector⟩ := Option.bind_eq_some_iff.mp hresolved
    exact .inr (mem_REGEX_iff.mpr (.inl (asAbsolute_mem hselector)))

/-! ## 6. When the two languages make the same of a text -/

theorem resolve_normalize {segment : Text} (hne : segment ≠ []) (base : Text) :
    resolve base (normalize segment) = absoluteSegment segment base := by
  unfold Ceres.Address.normalize
  by_cases hall : segment = "all".toList
  · rw [if_pos hall, hall]
    rfl
  · rw [if_neg hall, resolve_eq_absoluteSegment hne hall]

theorem newline_mem_of_admitted {segment base : Text} (h : Admitted segment) (hmem : '\n' ∈ segment) :
    '\n' ∈ absoluteSegment segment base := by
  obtain ⟨front, hfront, rfl | rfl⟩ := h
  · have haccepts : pushAccepts segment := pushAccepts_iff.mpr ⟨[segment], by simp, by simpa using hfront, by simp⟩
    exact absurd hmem (newline_not_mem_of_pushAccepts haccepts)
  · have hall : front ++ ['\n'] ≠ "all".toList := by
      intro h
      rw [h] at hmem
      exact absurd hmem (by decide)
    rw [← resolve_eq_absoluteSegment (by simp) hall, resolve_append (ne_nil_of_validSegment hfront)]
    simp

theorem mem_intercalate_of_mem {c : Char} {segment : Text} : ∀ {segments : List Text}, segment ∈ segments →
    c ∈ segment → c ∈ ['|'].intercalate segments
  | first :: segments, hmem, hc => by
      rw [intercalate_cons, List.mem_append, List.mem_flatten]
      rcases List.mem_cons.mp hmem with rfl | hmem
      · exact .inl hc
      · exact .inr ⟨_, List.mem_map.mpr ⟨segment, hmem, rfl⟩, List.mem_cons_of_mem _ hc⟩

theorem newline_mem_asAbsolute {value resolved : Text} {root : Option Text} (hvalue : value ∈ REGEX.matches')
    (h : Ceres.Address.AddressSelector.asAbsolute value root = some resolved) (hmem : '\n' ∈ value) :
    '\n' ∈ resolved := by
  obtain ⟨segments, hne, hadmitted, rfl, -⟩ := segments_of_mem_REGEX hvalue
  rw [asAbsolute_join hne hadmitted] at h
  unfold validated at h
  by_cases hvalid : ['|'].intercalate (segments.map fun segment => absoluteSegment segment (base root)) ∈ REGEX.matches'
  · rw [if_pos hvalid] at h
    cases h
    rcases mem_intercalate hmem with hbar | ⟨segment, hsegment, hin⟩
    · exact absurd hbar (by decide)
    · exact mem_intercalate_of_mem (List.mem_map.mpr ⟨segment, hsegment, rfl⟩)
        (newline_mem_of_admitted (hadmitted segment hsegment) hin)
  · rw [if_neg hvalid] at h
    cases h

theorem not_whitespace_of_accepts (h : pushAccepts value) : ∀ c ∈ value, whitespace.contains c = false := by
  obtain ⟨segments, hne, hvalid, rfl⟩ := pushAccepts_iff.mp h
  exact not_whitespace_of_segments hvalid

theorem parse_of_accepts (h : pushAccepts value) : AddressSelector.parse value = some value := by
  obtain ⟨segments, hne, hvalid, rfl⟩ := pushAccepts_iff.mp h
  exact parse_intercalate hne hvalid

section Scope

variable (hscope : validAddress scope = true)

include hscope

theorem root_valid : ∀ r ∈ some scope, validAddress r = true := by
  rintro r ⟨⟩
  exact hscope

/-- **What a selector without whitespace at its ends becomes**, in both languages. -/
theorem serverResolve_of_accepts {value : Text} (h : pushAccepts value) : serverResolve value scope =
    some (['|'].intercalate ((value.splitOn '|').map fun segment => absoluteSegment segment (base (some scope)))) := by
  have hvalid : ∀ segment ∈ value.splitOn '|', validSegment segment = true := List.all_eq_true.mp h
  have hjoin := Ceres.Address.asAbsolute_intercalate (List.splitOn_ne_nil '|' value) hvalid (root_valid hscope)
  rw [List.intercalate_splitOn] at hjoin
  rw [serverResolve_of_mem (mem_REGEX_iff.mpr (.inl h)), hjoin]

theorem consolePin_of_accepts {value : Text} (h : pushAccepts value) : consolePin scope value =
    ['|'].intercalate ((value.splitOn '|').map fun segment => absoluteSegment segment (base (some scope))) := by
  have hvalid : ∀ segment ∈ value.splitOn '|', validSegment segment = true := List.all_eq_true.mp h
  have hnormal : ∀ segment ∈ (value.splitOn '|').map normalize, validSegment segment = true := by
    intro segment hmem
    obtain ⟨source, hsource, rfl⟩ := List.mem_map.mp hmem
    exact validSegment_normalize (hvalid source hsource)
  have hne : (value.splitOn '|').map normalize ≠ [] := by simp
  rw [consolePin_eq, normalized, parse_intercalate hne hnormal, Option.bind_some,
    asAbsolute_eq hne hnormal (root_valid hscope), Option.getD_some, List.map_map]
  congr 1
  exact List.map_congr_left fun segment hmem => resolve_normalize (ne_nil_of_validSegment (hvalid segment hmem)) _

theorem serverPin_of_accepts {value : Text} (h : pushAccepts value) : serverPin scope value = consolePin scope value := by
  rw [consolePin_of_accepts hscope h, serverPin_eq, serverResolve_of_accepts hscope h, Option.getD_some]

theorem consolePin_accepts {value selector : Text} (h : AddressSelector.parse value = some selector) :
    pushAccepts (consolePin scope value) := by
  have hsome : (AddressSelector.parse (normalized value)).isSome = true :=
    (parse_normalized_isSome_iff value).mpr (by rw [h]; rfl)
  obtain ⟨trimmed, htrimmed⟩ := Option.isSome_iff_exists.mp hsome
  obtain ⟨segments, hne, hvalid, rfl⟩ := pushAccepts_iff.mp (pushAccepts_of_parse htrimmed).2
  rw [consolePin_eq, htrimmed, Option.bind_some, asAbsolute_eq hne hvalid (root_valid hscope), Option.getD_some]
  refine pushAccepts_iff.mpr ⟨_, by simpa using hne, fun segment hmem => ?_, rfl⟩
  obtain ⟨source, hsource, rfl⟩ := List.mem_map.mp hmem
  exact (resolve_absolute hvalid (root_valid hscope) hsource).validSegment

/-- **The two languages make the same of a text** exactly if the console sees no selector in it, or one with
    nothing to trim. -/
theorem pins_agree_iff (value : Text) : consolePin scope value = serverPin scope value ↔
    AddressSelector.parse value = none ∨ AddressSelector.parse value = some value := by
  cases hparse : AddressSelector.parse value with
  | none =>
    refine iff_of_true ?_ (.inl rfl)
    have hnone : AddressSelector.parse (normalized value) = none := by
      rw [← Option.not_isSome_iff_eq_none, parse_normalized_isSome_iff, hparse]
      exact Bool.false_ne_true
    have hserver : value ∉ REGEX.matches' := by
      intro hmem
      obtain ⟨selector, hselector, -⟩ := parse_of_mem_REGEX hmem
      rw [hparse] at hselector
      cases hselector
    rw [consolePin_eq, hnone, serverPin_eq, serverResolve_of_not_mem hserver]
    rfl
  | some selector =>
    have haccepts := (pushAccepts_of_parse hparse).2
    constructor
    · intro h
      right
      have hserver : ∀ c ∈ serverPin scope value, whitespace.contains c = false := by
        rw [← h]
        exact not_whitespace_of_accepts (consolePin_accepts hscope hparse)
      have hvalue : ∀ c ∈ value, whitespace.contains c = false := by
        rcases serverPin_cases value with hsame | ⟨hmem, hresolved⟩
        · rwa [hsame] at hserver
        · rcases mem_REGEX_iff.mp hmem with hplain | ⟨front, -, rfl⟩
          · exact not_whitespace_of_accepts hplain
          · have hnewline := newline_mem_asAbsolute hmem hresolved (by simp)
            exact absurd (hserver _ hnewline) (by decide)
      rw [(pushAccepts_of_parse hparse).1, trim_eq_self hvalue]
    · intro h
      have hsame : selector = value := Option.some.inj (h.resolve_left nofun)
      rw [hsame] at haccepts
      exact (serverPin_of_accepts hscope haccepts).symm

end Scope

end Pins

/-! ## 7. What a text means on two placements -/

/-- A text whose segments all name their bases. -/
def Unmoved (value : Text) : Prop :=
  ∀ selector, AddressSelector.parse value = some selector → ∀ segment ∈ selector.splitOn '|', anchored segment = true

theorem resolve_of_anchored (h : anchored segment = true) (base : Text) : resolve base segment = segment := by
  have hne : segment ≠ [] := by
    rintro rfl
    exact absurd h (by decide)
  have hall : segment ≠ "all".toList := by
    rintro rfl
    exact absurd h (by decide)
  rw [resolve_eq_absoluteSegment hne hall, absoluteSegment_of_anchored h]

/-- **A relative segment gives its base away.** -/
theorem base_eq_of_resolve_eq {old new : Option Text} (hold : ∀ r ∈ old, validAddress r = true)
    (hnew : ∀ r ∈ new, validAddress r = true) (hs : validSegment segment = true)
    (h : resolve (base old) segment = resolve (base new) segment) : anchored segment = true ∨ base old = base new := by
  have hpath : ∀ {path : Text} (rest : Text), validPath path = true → ∀ base : Text,
      resolve base (path ++ rest) = if base = ['@'] then '@' :: (path ++ rest) else base ++ '.' :: (path ++ rest) := by
    intro path rest hp base
    have hne : path ++ rest ≠ [] := by simp [(validPath_characters hp).1]
    unfold resolve
    simp only [isPrefixOf_path_append hp rest (by decide : (':' == '.' || Ceres.Database.nameCharacter ':') = false),
      isPrefixOf_path_append hp rest (by decide : ('~' == '.' || Ceres.Database.nameCharacter '~') = false),
      isPrefixOf_path_append hp rest (by decide : ('@' == '.' || Ceres.Database.nameCharacter '@') = false),
      Bool.false_eq_true, if_false, Bool.or_self, if_neg hne]
    by_cases hbase : base = ['@']
    · rw [if_pos hbase, if_pos hbase, hbase]
      rfl
    · rw [if_neg hbase, if_neg hbase]
  have hrelative : ∀ {path : Text} (rest : Text), validPath path = true → segment = path ++ rest →
      base old = base new := by
    intro path rest hp hsegment
    rw [hsegment, hpath rest hp, hpath rest hp] at h
    by_cases holdbase : base old = ['@']
    · by_cases hnewbase : base new = ['@']
      · rw [holdbase, hnewbase]
      · rw [if_pos holdbase, if_neg hnewbase] at h
        obtain ⟨tail, htail, htailpath⟩ := (base_cases hnew).resolve_left hnewbase
        have hlength := congrArg List.length h
        rw [htail] at hlength
        simp at hlength
        omega
    · by_cases hnewbase : base new = ['@']
      · rw [if_neg holdbase, if_pos hnewbase] at h
        obtain ⟨tail, htail, htailpath⟩ := (base_cases hold).resolve_left holdbase
        have hlength := congrArg List.length h
        rw [htail] at hlength
        simp at hlength
        omega
      · rw [if_neg holdbase, if_neg hnewbase] at h
        exact List.append_cancel_right h
  rcases validSegment_cases hs with habsolute | ⟨m, rfl⟩ | hp | ⟨path, m, rfl, hp⟩
  · exact .inl (anchored_of_absolute habsolute)
  · right
    have hcolon : ∀ base : Text, resolve base (':' :: m.text) = base ++ ':' :: m.text := fun _ => rfl
    rw [hcolon, hcolon] at h
    exact List.append_cancel_right h
  · exact .inr (hrelative [] hp (List.append_nil segment).symm)
  · exact .inr (hrelative (':' :: m.text) hp rfl)

theorem intercalate_inj {segments others : List Text} (hne : segments ≠ []) (hne' : others ≠ [])
    (h : ∀ segment ∈ segments, '|' ∉ segment) (h' : ∀ segment ∈ others, '|' ∉ segment) :
    ['|'].intercalate segments = ['|'].intercalate others ↔ segments = others := by
  constructor
  · intro heq
    have hsplit := congrArg (List.splitOn '|') heq
    rwa [List.splitOn_intercalate '|' h hne, List.splitOn_intercalate '|' h' hne'] at hsplit
  · rintro rfl
    rfl

section Meaning

variable {old new : Text} (hold : validAddress old = true) (hnew : validAddress new = true)

variable {value : Text}

theorem resolveWidgetAddress_of_ne_nil (h : value ≠ []) (scope : Text) : resolveWidgetAddress value scope =
      (AddressSelector.parse value).bind fun selector => asAbsolute selector (some scope) := by
  rw [resolveWidgetAddress, if_neg h]

include hold in
theorem asAbsolute_of_accepts {selector : Text} (h : pushAccepts selector) : asAbsolute selector (some old) =
    some (['|'].intercalate ((selector.splitOn '|').map (resolve (base (some old))))) := by
  have hvalid : ∀ segment ∈ selector.splitOn '|', validSegment segment = true := List.all_eq_true.mp h
  have hjoin := asAbsolute_eq (List.splitOn_ne_nil '|' selector) hvalid (root_valid hold)
  rwa [List.intercalate_splitOn] at hjoin

include hold in
theorem bar_not_mem_resolved {selector : Text} (h : pushAccepts selector) :
    ∀ segment ∈ (selector.splitOn '|').map (resolve (base (some old))), '|' ∉ segment := by
  intro segment hmem
  obtain ⟨source, hsource, rfl⟩ := List.mem_map.mp hmem
  exact bar_not_mem_of_validSegment (resolve_absolute (List.all_eq_true.mp h) (root_valid hold) hsource).validSegment

include hold hnew

/-- **A text that is left alone keeps its meaning** exactly if the placements are one for it. -/
theorem left_keeps_iff (hne : value ≠ []) : resolveWidgetAddress value new = resolveWidgetAddress value old ↔
      base (some old) = base (some new) ∨ Unmoved value := by
  rw [resolveWidgetAddress_of_ne_nil hne, resolveWidgetAddress_of_ne_nil hne]
  cases hparse : AddressSelector.parse value with
  | none =>
    refine iff_of_true rfl (.inr ?_)
    intro selector hselector
    rw [hparse] at hselector
    cases hselector
  | some selector =>
    have haccepts := (pushAccepts_of_parse hparse).2
    have hvalid : ∀ segment ∈ selector.splitOn '|', validSegment segment = true := List.all_eq_true.mp haccepts
    have hunmoved : Unmoved value ↔ ∀ segment ∈ selector.splitOn '|', anchored segment = true := by
      unfold Unmoved
      rw [hparse]
      simp
    rw [Option.bind_some, Option.bind_some, asAbsolute_of_accepts hnew haccepts, asAbsolute_of_accepts hold haccepts,
      Option.some.injEq, intercalate_inj (by simp) (by simp) (bar_not_mem_resolved hnew haccepts)
        (bar_not_mem_resolved hold haccepts), List.map_inj_left, hunmoved]
    constructor
    · intro h
      by_cases hbase : base (some old) = base (some new)
      · exact .inl hbase
      · refine .inr fun segment hmem => ?_
        exact (base_eq_of_resolve_eq (root_valid hold) (root_valid hnew) (hvalid segment hmem)
          (h segment hmem).symm).resolve_right hbase
    · intro h segment hmem
      rcases h with hbase | hanchored
      · rw [hbase]
      · rw [resolve_of_anchored (hanchored segment hmem), resolve_of_anchored (hanchored segment hmem)]

omit hold hnew in
/-- The segments Python admits, and what the console sees of each. -/
theorem segments_of_parse {value selector : Text} (hmem : value ∈ REGEX.matches')
    (hparse : AddressSelector.parse value = some selector) :
    ∃ segments, segments ≠ [] ∧ (∀ segment ∈ segments, Admitted segment) ∧ value = ['|'].intercalate segments ∧
      ∀ segment ∈ segments, ∃ front ∈ selector.splitOn '|', front ≠ [] ∧ ∃ rest, segment = front ++ rest := by
  obtain ⟨trimmed, htrimmed, haccepts, hvalue⟩ := parse_of_mem_REGEX hmem
  obtain rfl : trimmed = selector := Option.some.inj (htrimmed.symm.trans hparse)
  have hvalid : ∀ segment ∈ trimmed.splitOn '|', validSegment segment = true := List.all_eq_true.mp haccepts
  rcases hvalue with rfl | rfl
  · refine ⟨value.splitOn '|', List.splitOn_ne_nil '|' value, ?_, (List.intercalate_splitOn '|').symm, ?_⟩
    · exact fun segment hsegment => ⟨segment, hvalid segment hsegment, .inl rfl⟩
    · exact fun segment hsegment =>
        ⟨segment, hsegment, ne_nil_of_validSegment (hvalid segment hsegment), [], (List.append_nil segment).symm⟩
  · obtain ⟨first, last, hsplit⟩ := (List.eq_nil_or_concat' (trimmed.splitOn '|')).resolve_left
      (List.splitOn_ne_nil '|' trimmed)
    rw [hsplit, List.forall_mem_append, List.forall_mem_singleton] at hvalid
    refine ⟨first ++ [last ++ ['\n']], by simp, ?_, ?_, ?_⟩
    · rw [List.forall_mem_append, List.forall_mem_singleton]
      exact ⟨fun segment hsegment => ⟨segment, hvalid.1 segment hsegment, .inl rfl⟩, last, hvalid.2, .inr rfl⟩
    · have hjoin := @List.intercalate_splitOn _ trimmed _ _ '|'
      rw [hsplit] at hjoin
      rw [← hjoin, intercalate_concat, intercalate_concat, List.append_assoc]
    · rw [hsplit, List.forall_mem_append, List.forall_mem_singleton]
      refine ⟨fun segment hsegment => ⟨segment, List.mem_append_left _ hsegment,
        ne_nil_of_validSegment (hvalid.1 segment hsegment), [], (List.append_nil segment).symm⟩, ?_⟩
      exact ⟨last, List.mem_append_right _ List.mem_cons_self, ne_nil_of_validSegment hvalid.2, ['\n'], rfl⟩

omit hold hnew in
theorem left_keeps_server (h : base (some old) = base (some new) ∨ Unmoved value) :
    serverResolve value new = serverResolve value old := by
  by_cases hmem : value ∈ REGEX.matches'
  · obtain ⟨selector, hparse, -⟩ := parse_of_mem_REGEX hmem
    obtain ⟨segments, hne, hadmitted, hvalue, hfront⟩ := segments_of_parse hmem hparse
    rw [serverResolve_of_mem hmem, serverResolve_of_mem hmem, hvalue, asAbsolute_join hne hadmitted,
      asAbsolute_join hne hadmitted]
    rcases h with hbase | hunmoved
    · rw [hbase]
    · congr 2
      refine List.map_congr_left fun segment hsegment => ?_
      obtain ⟨front, hin, hfrontne, rest, rfl⟩ := hfront segment hsegment
      have hanchored : anchored (front ++ rest) = true := by
        rw [anchored_append hfrontne]
        exact hunmoved selector hparse front hin
      rw [absoluteSegment_of_anchored hanchored, absoluteSegment_of_anchored hanchored]
  · rw [serverResolve_of_not_mem hmem, serverResolve_of_not_mem hmem]

omit hnew in
/-- The console reads `all` as a name, and pinning has made it `:all`. -/
theorem absoluteSegment_eq_resolve_iff {segment : Text} (hne : segment ≠ []) :
    absoluteSegment segment (base (some old)) = resolve (base (some old)) segment ↔ segment ≠ "all".toList := by
  constructor
  · rintro h rfl
    have hcolon : ':' ∈ namedAll (some old) := by
      rw [namedAll, ← h]
      have habsolute : absoluteSegment "all".toList (base (some old)) = base (some old) ++ ":all".toList := rfl
      rw [habsolute, List.mem_append]
      exact .inr (by decide)
    rcases namedAll_cases (root_valid hold) with ⟨-, hnamed⟩ | ⟨path, -, hp, hnamed⟩
    · rw [hnamed] at hcolon
      exact absurd hcolon (by decide)
    · rw [hnamed] at hcolon
      simp [not_mem_of_validPath hp (c := ':') (by decide)] at hcolon
  · intro hall
    exact (resolve_eq_absoluteSegment hne hall).symm

/-- **A text that is pinned keeps its meaning for the console** exactly if no segment is the bare `all`. -/
theorem pinned_keeps_iff (h : pushAccepts value) :
    resolveWidgetAddress (serverPin old value) new = resolveWidgetAddress value old ↔
      "all".toList ∉ value.splitOn '|' := by
  have hvalid : ∀ segment ∈ value.splitOn '|', validSegment segment = true := List.all_eq_true.mp h
  have hadmitted : ∀ segment ∈ value.splitOn '|', Admitted segment :=
    fun segment hmem => ⟨segment, hvalid segment hmem, .inl rfl⟩
  have hne : value ≠ [] := by
    rintro rfl
    exact absurd h (by decide)
  have hpinned : serverPin old value =
      ['|'].intercalate ((value.splitOn '|').map fun segment => absoluteSegment segment (base (some old))) := by
    rw [serverPin_of_accepts hold h, consolePin_of_accepts hold h]
  have hresolved : ∀ segment ∈ (value.splitOn '|').map fun segment => absoluteSegment segment (base (some old)),
      validSegment segment = true ∧ anchored segment = true ∧ '|' ∉ segment := by
    intro segment hmem
    obtain ⟨source, hsource, rfl⟩ := List.mem_map.mp hmem
    have habsolute := absoluteSegment_absolute (hvalid source hsource) (root_valid hold)
    exact ⟨habsolute.validSegment, anchored_of_absolute habsolute, bar_not_mem_of_validSegment habsolute.validSegment⟩
  have haccepts : pushAccepts (serverPin old value) := by
    rw [hpinned]
    exact pushAccepts_iff.mpr ⟨_, by simp, fun segment hmem => (hresolved segment hmem).1, rfl⟩
  have hpinnedne : serverPin old value ≠ [] := by
    intro hnil
    rw [hnil] at haccepts
    exact absurd haccepts (by decide)
  have hsplit : (serverPin old value).splitOn '|' =
      (value.splitOn '|').map fun segment => absoluteSegment segment (base (some old)) := by
    rw [hpinned]
    exact List.splitOn_intercalate '|' (fun segment hmem => (hresolved segment hmem).2.2) (by simp)
  have hsame : ((serverPin old value).splitOn '|').map (resolve (base (some new))) =
      (value.splitOn '|').map fun segment => absoluteSegment segment (base (some old)) := by
    rw [hsplit]
    exact (List.map_congr_left fun segment hmem => resolve_of_anchored (hresolved segment hmem).2.1 _).trans
      (List.map_id _)
  rw [resolveWidgetAddress_of_ne_nil hne, resolveWidgetAddress_of_ne_nil hpinnedne, parse_of_accepts h,
    parse_of_accepts haccepts, Option.bind_some, Option.bind_some, asAbsolute_of_accepts hnew haccepts,
    asAbsolute_of_accepts hold h, hsame, Option.some.injEq, intercalate_inj (by simp) (by simp)
      (fun segment hmem => (hresolved segment hmem).2.2) (bar_not_mem_resolved hold h), List.map_inj_left]
  constructor
  · intro heq hall
    exact (absoluteSegment_eq_resolve_iff hold (by decide : "all".toList ≠ [])).mp (heq _ hall) rfl
  · intro hall segment hmem
    refine (absoluteSegment_eq_resolve_iff hold (ne_nil_of_validSegment (hvalid segment hmem))).mpr ?_
    rintro rfl
    exact hall hmem

omit hnew in
theorem pinned_keeps_server (h : pushAccepts value) (scope : Text) :
    serverResolve (serverPin old value) scope = serverResolve value old := by
  have hresolved := serverResolve_of_accepts hold h
  have hpin : serverResolve value old = some (serverPin old value) := by
    rw [serverPin_eq, hresolved, Option.getD_some]
  have hmem : value ∈ REGEX.matches' := mem_REGEX_iff.mpr (.inl h)
  rw [hpin]
  rw [serverResolve_of_mem hmem] at hpin
  obtain ⟨hadmitted, htwice⟩ := asAbsolute_twice (root_valid hold) hmem hpin (some scope)
  rw [serverResolve_of_mem hadmitted, htwice]

end Meaning

/-! ## 8. A move -/

/-- **A reference that keeps its target**, for the console and for the server, or is empty or unset and stays. -/
def Kept (old new : Text) (before after : Json) : Prop :=
  (∀ text, before = .string text → text ≠ [] → ∃ moved, after = .string moved ∧
    resolveWidgetAddress moved new = resolveWidgetAddress text old ∧
      serverResolve moved new = serverResolve text old) ∧
  ((∀ text, before = .string text → text = []) → after = before)

/-- What a move from the placement `old` to `new` promises for a payload. -/
structure KeepsTargets (old new : Text) (data : Object) : Prop where
  kept : List.Forall₂ (Kept old new) (references data) (references (pinWidgetAddresses (serverPin old) data))
  idempotent : pinWidgetAddresses (serverPin old) (pinWidgetAddresses (serverPin old) data) =
    pinWidgetAddresses (serverPin old) data
  mirrored : pinWidgetAddresses (consolePin old) data = pinWidgetAddresses (serverPin old) data

/-- A pinned reference is no selector, or it has nothing to trim and no bare `all`; another one names its bases
    itself, or the placements are one for it. -/
def Movable (old new : Text) (reference : Json × Bool) : Prop :=
  ∀ text, reference.1 = .string text → text ≠ [] →
    (reference.2 = true → AddressSelector.parse text = none ∨
      (AddressSelector.parse text = some text ∧ "all".toList ∉ text.splitOn '|')) ∧
    (reference.2 = false → base (some old) = base (some new) ∨ Unmoved text)

section Move

variable {old new : Text} (hold : validAddress old = true) (hnew : validAddress new = true)

include hold hnew

theorem movable_pinned_iff {text : Text} (hne : text ≠ []) :
    (resolveWidgetAddress (serverPin old text) new = resolveWidgetAddress text old ∧
        serverResolve (serverPin old text) new = serverResolve text old) ∧ consolePin old text = serverPin old text ↔
      AddressSelector.parse text = none ∨
        (AddressSelector.parse text = some text ∧ "all".toList ∉ text.splitOn '|') := by
  rw [pins_agree_iff hold]
  constructor
  · intro h
    obtain ⟨⟨hconsole, -⟩, hparse⟩ := h
    refine hparse.imp_right fun hself => ⟨hself, ?_⟩
    exact (pinned_keeps_iff hold hnew (pushAccepts_of_parse hself).2).mp hconsole
  · intro h
    rcases h with hnone | ⟨hself, hall⟩
    · have hmem : text ∉ REGEX.matches' := by
        intro hmem
        obtain ⟨selector, hselector, -⟩ := parse_of_mem_REGEX hmem
        rw [hnone] at hselector
        cases hselector
      have hsame : serverPin old text = text := by
        rw [serverPin_eq, serverResolve_of_not_mem hmem, Option.getD_none]
      rw [hsame, resolveWidgetAddress_of_ne_nil hne, resolveWidgetAddress_of_ne_nil hne, hnone,
        serverResolve_of_not_mem hmem, serverResolve_of_not_mem hmem]
      exact ⟨⟨rfl, rfl⟩, .inl rfl⟩
    · have haccepts := (pushAccepts_of_parse hself).2
      exact ⟨⟨(pinned_keeps_iff hold hnew haccepts).mpr hall, pinned_keeps_server hold haccepts new⟩, .inr hself⟩

/-- **One reference.** -/
theorem movable_iff (reference : Json × Bool) : Kept old new reference.1 (repin (serverPin old) reference) ∧
        AgreeOn (consolePin old) (serverPin old) reference ↔ Movable old new reference := by
  obtain ⟨value, pinned⟩ := reference
  by_cases hvalue : ∃ text, value = .string text ∧ text ≠ []
  · obtain ⟨text, rfl, hne⟩ := hvalue
    have hkept : ∀ moved, Kept old new (.string text) (.string moved) ↔
        resolveWidgetAddress moved new = resolveWidgetAddress text old ∧
          serverResolve moved new = serverResolve text old := by
      intro moved
      constructor
      · intro h
        obtain ⟨other, hother, hmeaning⟩ := h.1 text rfl hne
        cases hother
        exact hmeaning
      · intro h
        refine ⟨?_, fun hempty => absurd (hempty text rfl) hne⟩
        rintro _ ⟨⟩ -
        exact ⟨moved, rfl, h⟩
    have hmovable : Movable old new (.string text, pinned) ↔
        (pinned = true → AddressSelector.parse text = none ∨
          (AddressSelector.parse text = some text ∧ "all".toList ∉ text.splitOn '|')) ∧
        (pinned = false → base (some old) = base (some new) ∨ Unmoved text) := by
      constructor
      · intro h
        exact h text rfl hne
      · rintro h _ ⟨⟩ -
        exact h
    rw [hmovable]
    cases pinned with
    | true =>
      have hagree : AgreeOn (consolePin old) (serverPin old) (.string text, true) ↔
          consolePin old text = serverPin old text :=
        ⟨fun h => Json.string.inj (h rfl), fun h _ => congrArg Json.string h⟩
      have hrepin : repin (serverPin old) (.string text, true) = .string (serverPin old text) := rfl
      rw [hrepin, hkept, hagree, movable_pinned_iff hold hnew hne]
      simp
    | false =>
      have hrepin : repin (serverPin old) (.string text, false) = .string text := rfl
      have hagree : AgreeOn (consolePin old) (serverPin old) (.string text, false) := nofun
      rw [hrepin, hkept, left_keeps_iff hold hnew hne]
      constructor
      · intro h
        exact ⟨nofun, fun _ => h.1.1⟩
      · intro h
        exact ⟨⟨h.2 rfl, left_keeps_server (h.2 rfl)⟩, hagree⟩
  · have hempty : ∀ text, value = .string text → text = [] :=
      fun text htext => of_not_not fun hne => hvalue ⟨text, htext, hne⟩
    have hpin : pinValue (serverPin old) value = value ∧ pinValue (consolePin old) value = value := by
      cases value with
      | string text =>
        rw [hempty text rfl]
        exact ⟨rfl, rfl⟩
      | _ => exact ⟨rfl, rfl⟩
    have hrepin : repin (serverPin old) (value, pinned) = value := by
      unfold repin
      split
      · exact hpin.1
      · rfl
    refine iff_of_true ⟨?_, fun _ => hpin.2.trans hpin.1.symm⟩ ?_
    · rw [hrepin]
      exact ⟨fun text htext hne => absurd (hempty text htext) hne, fun _ => rfl⟩
    · exact fun text htext hne => absurd (hempty text htext) hne

end Move

/-- **A move keeps every target** of a payload, pinning is done once, and the console does what the server does,
    exactly if every reference of its widgets can be moved. -/
theorem pinning_keeps_targets_iff (old new : Text) (data : Object) (hold : Taken old) (hnew : Taken new) :
    KeepsTargets old new data ↔ ∀ reference ∈ markedReferences data, Movable old new reference := by
  have holdvalid := validAddress_of_taken hold
  have hnewvalid := validAddress_of_taken hnew
  have hkept : List.Forall₂ (Kept old new) (references data) (references (pinWidgetAddresses (serverPin old) data)) ↔
      ∀ reference ∈ markedReferences data, Kept old new reference.1 (repin (serverPin old) reference) := by
    rw [references_eq, references_pinned (addressed_serverPin holdvalid), List.forall₂_map_left_iff,
      List.forall₂_map_right_iff, List.forall₂_same]
  have hmirrored := pinWidgetAddresses_eq_iff (@addressed_consolePin old) (addressed_serverPin holdvalid) data
  constructor
  · intro h reference hmem
    exact (movable_iff holdvalid hnewvalid reference).mp
      ⟨hkept.mp h.kept reference hmem, hmirrored.mp h.mirrored reference hmem⟩
  · intro h
    have hboth := fun reference hmem => (movable_iff holdvalid hnewvalid reference).mpr (h reference hmem)
    exact {
      kept := hkept.mpr fun reference hmem => (hboth reference hmem).1
      idempotent := pinWidgetAddresses_idempotent (addressed_serverPin holdvalid) (serverPin_twice holdvalid) data
      mirrored := hmirrored.mpr fun reference hmem => (hboth reference hmem).2 }

namespace Sample

open Ceres.Server.Redaction.Sample (data meter files)

theorem taken_a : Taken ['@', 'a'] := taken_iff.mpr (by decide)

theorem taken_b : Taken ['@', 'b'] := taken_iff.mpr (by decide)

/-- A workspace with one meter on a component beneath the placement. -/
def withMeter : Object := data (meter "rig".toList)

/-- A workspace with the files of a component beneath the placement. -/
def withFiles : Object := data (files "rig".toList)

/-- A workspace with a video whose query begins with a blank. -/
def withVideo : Object :=
  data (Ceres.Server.Redaction.Sample.widget "video" [("query", .string " rig::queries::live".toList)])

end Sample

theorem meter_keeps_target : KeepsTargets ['@', 'a'] ['@', 'b'] Sample.withMeter := by
  refine (pinning_keeps_targets_iff ['@', 'a'] ['@', 'b'] Sample.withMeter Sample.taken_a Sample.taken_b).mpr ?_
  intro reference hmem
  obtain rfl : reference = (.string "rig".toList, true) := List.mem_singleton.mp hmem
  rintro text ⟨⟩ -
  exact ⟨fun _ => .inr ⟨by decide, by decide⟩, nofun⟩

/-- The component of a files widget is not pinned, and a blank in front of a query is no selector to the server. -/
theorem files_and_blank_lose :
    ¬ KeepsTargets ['@', 'a'] ['@', 'b'] Sample.withFiles ∧
      pinWidgetAddresses (consolePin ['@', 'a']) Sample.withVideo ≠
        pinWidgetAddresses (serverPin ['@', 'a']) Sample.withVideo := by
  constructor
  · intro h
    have hkept := h.kept
    have hbefore : references Sample.withFiles = [.string "rig".toList] := rfl
    have hafter : references (pinWidgetAddresses (serverPin ['@', 'a']) Sample.withFiles) =
        [.string "rig".toList] := rfl
    rw [hbefore, hafter, List.forall₂_cons] at hkept
    obtain ⟨moved, hmoved, hmeaning, -⟩ := hkept.1.1 "rig".toList rfl (by decide)
    cases hmoved
    exact absurd hmeaning (by decide)
  · intro h
    have hreferences := congrArg references h
    have hconsole : references (pinWidgetAddresses (consolePin ['@', 'a']) Sample.withVideo) =
        [.string (consolePin ['@', 'a'] " rig".toList)] := by
      rw [references_pinned (@addressed_consolePin ['@', 'a'])]
      rfl
    have hserver : references (pinWidgetAddresses (serverPin ['@', 'a']) Sample.withVideo) =
        [.string (serverPin ['@', 'a'] " rig".toList)] := by
      rw [references_pinned (addressed_serverPin (validAddress_of_taken Sample.taken_a))]
      rfl
    rw [hconsole, hserver, List.cons.injEq, Json.string.injEq] at hreferences
    exact absurd hreferences.1 (by decide)

end Ceres.Console.Association
