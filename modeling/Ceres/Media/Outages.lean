/-
  File:      Ceres/Media/Outages.lean
  Subject:   WHAT A STREAM IS TOLD OF ITS SOURCE'S OUTAGES (`rust/ceres-media/src/remux/reader.rs`, on the
             reader of `Ceres.Media.Reader`).

  The reader loses its source, tries again, and gets it back. A stream that saw the source go is told so,
  once, and then how it goes; one that joined in between is told nothing of it.

  * `watch`, `outages` -- the outages of a run as such: the actions from a lost connection to the picture's
    coming back;
  * `account` -- what there is to tell of one: `Lost`, then `Retrying` if it was scheduled, then
    `Reconnected` with the number of lost calls if it is over;
  * `told` -- the notices of a stream's feed;
  * **`told_since_join`** -- a stream is told the account of every outage that began after it joined, in
    order, and nothing else.
-/
import Ceres.Media.Reader

namespace Ceres.Media.Reader

open Ceres.Library

variable {π ε : Type}

/-! ## 1. The outages of a run -/

def Action.isLost : Action π ε → Bool
  | .lost _ => true
  | _ => false

def Action.isSchedule : Action π ε → Bool
  | .schedule => true
  | _ => false

def Action.isReceived : Action π ε → Bool
  | .received => true
  | _ => false

def Action.isJoin : Action π ε → Bool
  | .join => true
  | _ => false

/-- The outages so far, each as its actions, and the one that goes on. -/
structure Watch (π ε : Type) where
  ended : List (List (Action π ε))
  current : Option (List (Action π ε))

/-- A lost connection begins an outage, and the picture's coming back ends it. -/
def Watch.see (watch : Watch π ε) (a : Action π ε) : Watch π ε :=
  match watch.current with
  | none => if a.isLost then { watch with current := some [a] } else watch
  | some outage =>
    if a.isReceived then ⟨watch.ended ++ [outage ++ [a]], none⟩
    else { watch with current := some (outage ++ [a]) }

def Watch.all (watch : Watch π ε) : List (List (Action π ε)) := watch.ended ++ watch.current.toList

def watch (actions : List (Action π ε)) : Watch π ε := actions.foldl Watch.see ⟨[], none⟩

def outages (actions : List (Action π ε)) : List (List (Action π ε)) := (watch actions).all

/-- The error that an outage began with. -/
def firstError : List (Action π ε) → Option ε
  | .lost error :: _ => error
  | _ => none

/-- What there is to tell of an outage. -/
def account (outage : List (Action π ε)) : List (Feed π ε) :=
  [.lost (firstError outage)] ++
    (if outage.any Action.isSchedule then [.notice .retrying] else []) ++
    (if outage.any Action.isReceived then [.notice (.reconnected (outage.countP Action.isLost))] else [])

def Feed.isTold : Feed π ε → Bool
  | .lost _ => true
  | .notice _ => true
  | _ => false

/-- The notices of a feed. -/
def told (feed : List (Feed π ε)) : List (Feed π ε) := feed.filter Feed.isTold

/-! ## 2. What is on, and what a stream has heard -/

/-- The reader's outage is the one that goes on. -/
def Follows (outage : Option (Outage ε)) (current : Option (List (Action π ε))) : Prop :=
  match outage, current with
  | none, none => True
  | some outage, some actions =>
    outage.attempts = actions.countP Action.isLost ∧ outage.scheduled = actions.any Action.isSchedule ∧
      actions.any Action.isReceived = false ∧ actions ≠ []
  | _, _ => False

/-- The stream has heard of all outages but the first `unheard`, and `lost` says whether it was told of
    the one that goes on. -/
structure Heard (watch : Watch π ε) (unheard : Nat) (subscriber : Subscriber π ε) : Prop where
  begun : unheard ≤ watch.all.length
  told : told subscriber.feed = (watch.all.drop unheard).flatMap account
  lost : subscriber.lost = true ↔ watch.current.isSome = true ∧ unheard ≤ watch.ended.length

/-- The stream is the one that the last action of `before` let in. -/
structure Joined (actions : List (Action π ε)) (subscriber : Subscriber π ε) (before : List (Action π ε)) :
    Prop where
  from_start : ∃ after, actions = before ++ .join :: after
  id : before.countP Action.isJoin = subscriber.id

structure Tracked (actions : List (Action π ε)) (s : State π ε) : Prop where
  outage : Follows s.outage (watch actions).current
  nextId : s.nextId = actions.countP Action.isJoin
  heard : ∀ subscriber ∈ s.subscribers, ∃ before, Joined actions subscriber before ∧
    Heard (watch actions) (outages before).length subscriber

theorem watch_snoc (actions : List (Action π ε)) (a : Action π ε) :
    watch (actions ++ [a]) = (watch actions).see a := List.foldl_concat Watch.see ⟨[], none⟩ a actions

theorem told_snoc (feed : List (Feed π ε)) (item : Feed π ε) :
    told (feed ++ [item]) = told feed ++ if item.isTold then [item] else [] := by
  unfold told
  rw [List.filter_append, List.filter_singleton]
  cases item.isTold <;> rfl

theorem Joined.snoc {actions before : List (Action π ε)} {subscriber : Subscriber π ε}
    (h : Joined actions subscriber before) (a : Action π ε) : Joined (actions ++ [a]) subscriber before := by
  obtain ⟨after, hactions⟩ := h.from_start
  exact ⟨⟨after ++ [a], by rw [hactions, List.append_assoc, List.cons_append]⟩, h.id⟩

/-! ## 3. A step that is no part of an outage's account -/

/-- The two have heard the same. -/
structure Alike (subscriber subscriber' : Subscriber π ε) : Prop where
  id : subscriber'.id = subscriber.id
  lost : subscriber'.lost = subscriber.lost
  told : Reader.told subscriber'.feed = Reader.told subscriber.feed

theorem Alike.refl (subscriber : Subscriber π ε) : Alike subscriber subscriber := ⟨rfl, rfl, rfl⟩

theorem Alike.trans {a b c : Subscriber π ε} (h : Alike a b) (h' : Alike b c) : Alike a c :=
  ⟨h'.id.trans h.id, h'.lost.trans h.lost, h'.told.trans h.told⟩

variable {subscriber sent : Subscriber π ε}

theorem send_alike {feed : Feed π ε} (hfeed : feed.isTold = false)
    (h : subscriber.send feed = some sent) : Alike subscriber sent := by
  obtain ⟨_, rfl⟩ := send_eq_some h
  refine ⟨rfl, rfl, ?_⟩
  show told (subscriber.feed ++ [feed]) = told subscriber.feed
  rw [told_snoc, hfeed]
  exact List.append_nil _

theorem give_alike {packet : MediaPacket π} (h : subscriber.give packet = some sent) : Alike subscriber sent :=
  have hcounted : Alike subscriber { subscriber with pending := subscriber.pending + 1 } := ⟨rfl, rfl, rfl⟩
  hcounted.trans (send_alike rfl h)

theorem resume_alike {track : Nat} (h : subscriber.resume track = some sent) : Alike subscriber sent := by
  obtain ⟨told, htold, rfl⟩ := Option.map_eq_some_iff.mp h
  have halike : Alike subscriber told := send_alike rfl htold
  exact ⟨halike.id, halike.lost, halike.told⟩

theorem publish_alike {track : Nat} {packet : MediaPacket π}
    (h : subscriber.publish track packet = some sent) : Alike subscriber sent := by
  unfold Subscriber.publish at h
  split at h
  · split at h
    · obtain rfl := Option.some.inj h
      exact .refl _
    · obtain ⟨resumed, hresumed, hgiven⟩ := Option.bind_eq_some_iff.mp h
      exact (resume_alike hresumed).trans (give_alike hgiven)
  · split at h
    · obtain rfl := Option.some.inj h
      exact ⟨rfl, rfl, rfl⟩
    · exact give_alike h

theorem take_alike (subscriber : Subscriber π ε) : Alike subscriber subscriber.take := by
  unfold Subscriber.take
  split <;> exact ⟨rfl, rfl, rfl⟩

/-- An action that neither loses, schedules nor regains the source. -/
def Action.isQuiet (a : Action π ε) : Bool := !a.isLost && !a.isSchedule && !a.isReceived

variable {a : Action π ε}

theorem see_quiet {watch : Watch π ε} (ha : a.isQuiet = true) :
    watch.see a = ⟨watch.ended, watch.current.map (· ++ [a])⟩ := by
  unfold Action.isQuiet at ha
  simp only [Bool.and_eq_true, Bool.not_eq_true'] at ha
  obtain ⟨ended, current⟩ := watch
  unfold Watch.see
  cases current with
  | none => exact if_neg (by rw [ha.1.1]; exact Bool.false_ne_true)
  | some outage => exact if_neg (by rw [ha.2]; exact Bool.false_ne_true)

variable {outage : List (Action π ε)}

theorem firstError_snoc (h : outage ≠ []) (a : Action π ε) : firstError (outage ++ [a]) = firstError outage := by
  cases outage with
  | nil => exact absurd rfl h
  | cons first rest => cases first <;> rfl

theorem account_quiet (h : outage ≠ []) (ha : a.isQuiet = true) : account (outage ++ [a]) = account outage := by
  unfold Action.isQuiet at ha
  simp only [Bool.and_eq_true, Bool.not_eq_true'] at ha
  unfold account
  rw [firstError_snoc h]
  simp only [List.any_append, List.any_cons, List.any_nil, List.countP_append, List.countP_singleton, ha,
    Bool.or_false, Bool.false_eq_true, if_false, Nat.add_zero]

theorem Heard.grow {watch watch' : Watch π ε} {unheard : Nat} {subscriber subscriber' : Subscriber π ε}
    {outage outage' : List (Action π ε)} {more : List (Feed π ε)} (h : Heard watch unheard subscriber)
    (hcurrent : watch.current = some outage) (hall : watch'.all = watch.ended ++ [outage'])
    (haccount : account outage' = account outage ++ more)
    (htold : Reader.told subscriber'.feed = Reader.told subscriber.feed ++ if subscriber.lost then more else [])
    (hlost : subscriber'.lost = true ↔ watch'.current.isSome = true ∧ unheard ≤ watch'.ended.length) :
    Heard watch' unheard subscriber' := by
  have hbefore : watch.all = watch.ended ++ [outage] := by
    unfold Watch.all
    rw [hcurrent]
    rfl
  have hbegun := h.begun
  rw [hbefore, List.length_append, List.length_singleton] at hbegun
  refine ⟨by rw [hall, List.length_append, List.length_singleton]; exact hbegun, ?_, hlost⟩
  rw [htold, h.told, hbefore, hall]
  by_cases hin : unheard ≤ watch.ended.length
  · have htrue : subscriber.lost = true := h.lost.mpr ⟨by rw [hcurrent]; rfl, hin⟩
    rw [List.drop_append_of_le_length hin, List.drop_append_of_le_length hin, List.flatMap_append,
      List.flatMap_append, List.flatMap_singleton, List.flatMap_singleton, haccount, htrue, if_pos rfl,
      List.append_assoc]
  · have hfalse : subscriber.lost = false := Bool.eq_false_iff.mpr fun htrue => hin (h.lost.mp htrue).2
    have hgone : ∀ last : List (Action π ε), (watch.ended ++ [last]).drop unheard = [] := fun last => by
      refine List.drop_eq_nil_of_le ?_
      rw [List.length_append, List.length_singleton]
      omega
    rw [hgone, hgone, hfalse, if_neg Bool.false_ne_true, List.append_nil]

theorem Heard.quiet {watch : Watch π ε} {unheard : Nat} {subscriber subscriber' : Subscriber π ε}
    (h : Heard watch unheard subscriber) (halike : Alike subscriber subscriber') (ha : a.isQuiet = true)
    (hcurrent : ∀ outage ∈ watch.current, outage ≠ []) : Heard (watch.see a) unheard subscriber' := by
  rw [see_quiet ha]
  cases hat : watch.current with
  | none =>
    have hsame : (⟨watch.ended, Option.map (· ++ [a]) none⟩ : Watch π ε) = watch := by
      rw [Option.map_none, ← hat]
    rw [hsame]
    exact ⟨h.begun, halike.told.trans h.told, by rw [halike.lost]; exact h.lost⟩
  | some outage =>
    have haccount : account (outage ++ [a]) = account outage ++ [] := by
      rw [account_quiet (hcurrent outage hat) ha, List.append_nil]
    refine h.grow hat rfl haccount ?_ ?_
    · rw [halike.told, ite_self, List.append_nil]
    · rw [halike.lost, h.lost, hat]
      exact Iff.rfl

theorem Follows.quiet {outage : Option (Outage ε)} {current : Option (List (Action π ε))}
    (h : Follows outage current) (ha : a.isQuiet = true) : Follows outage (current.map (· ++ [a])) := by
  unfold Action.isQuiet at ha
  simp only [Bool.and_eq_true, Bool.not_eq_true'] at ha
  cases outage with
  | none =>
    cases current with
    | none => trivial
    | some actions => exact h.elim
  | some outage =>
    cases current with
    | none => exact h.elim
    | some actions =>
      obtain ⟨hattempts, hscheduled, hgoing, _⟩ := h
      refine ⟨?_, ?_, ?_, List.append_ne_nil_of_right_ne_nil _ (List.cons_ne_nil _ _)⟩
      · rw [List.countP_append, List.countP_singleton, if_neg (by rw [ha.1.1]; exact Bool.false_ne_true)]
        exact hattempts
      · rw [List.any_append, List.any_cons, ha.1.2]
        simpa using hscheduled
      · rw [List.any_append, List.any_cons, ha.2]
        simpa using hgoing

theorem Follows.nonempty {outage : Option (Outage ε)} {current : Option (List (Action π ε))}
    (h : Follows outage current) : ∀ actions ∈ current, actions ≠ [] := by
  intro actions hactions
  obtain rfl := Option.mem_def.mp hactions
  cases outage with
  | none => exact h.elim
  | some outage => exact h.2.2.2

variable {actions : List (Action π ε)}

theorem Tracked.quiet {s s' : State π ε} (h : Tracked actions s) (ha : a.isQuiet = true)
    (houtage : s'.outage = s.outage) (hnext : s'.nextId = s.nextId + if a.isJoin then 1 else 0)
    (hsubs : ∀ subscriber' ∈ s'.subscribers, (∃ subscriber ∈ s.subscribers, Alike subscriber subscriber') ∨
      ∃ before, Joined (actions ++ [a]) subscriber' before ∧ Heard (watch (actions ++ [a]))
      (outages before).length subscriber') : Tracked (actions ++ [a]) s' := by
  refine ⟨?_, ?_, fun subscriber' hmem => ?_⟩
  · rw [watch_snoc, see_quiet ha, houtage]
    exact h.outage.quiet ha
  · rw [hnext, h.nextId, List.countP_append, List.countP_singleton]
  · obtain ⟨subscriber, hsubscriber, halike⟩ | hnew := hsubs subscriber' hmem
    · obtain ⟨before, hjoined, hheard⟩ := h.heard subscriber hsubscriber
      have hjoined : Joined (actions ++ [a]) subscriber' before :=
        ⟨(hjoined.snoc a).from_start, hjoined.id.trans halike.id.symm⟩
      refine ⟨before, hjoined, ?_⟩
      rw [watch_snoc]
      exact hheard.quiet halike ha h.outage.nonempty
    · exact hnew

/-! ## 4. The source goes, is tried again, and comes back -/

theorem Tracked.grow {s s' : State π ε} (h : Tracked actions s) {outage outage' : List (Action π ε)}
    {more : List (Feed π ε)} (hcurrent : (watch actions).current = some outage)
    (hall : ((watch actions).see a).all = (watch actions).ended ++ [outage'])
    (haccount : account outage' = account outage ++ more)
    (houtage : Follows s'.outage ((watch actions).see a).current) (ha : a.isJoin = false)
    (hnext : s'.nextId = s.nextId)
    (hsubs : ∀ subscriber' ∈ s'.subscribers, ∃ subscriber ∈ s.subscribers, subscriber'.id = subscriber.id ∧
      told subscriber'.feed = told subscriber.feed ++ (if subscriber.lost then more else []) ∧
      (subscriber'.lost = true ↔ subscriber.lost = true ∧ ((watch actions).see a).current.isSome = true))
    (hended : ((watch actions).see a).current.isSome = true →
      ((watch actions).see a).ended = (watch actions).ended) : Tracked (actions ++ [a]) s' := by
  refine ⟨?_, ?_, fun subscriber' hmem => ?_⟩
  · rw [watch_snoc]
    exact houtage
  · rw [hnext, h.nextId, List.countP_append, List.countP_singleton, ha]
    rfl
  · obtain ⟨subscriber, hsubscriber, hid, htold, hlost⟩ := hsubs subscriber' hmem
    obtain ⟨before, hjoined, hheard⟩ := h.heard subscriber hsubscriber
    have hjoined : Joined (actions ++ [a]) subscriber' before :=
      ⟨(hjoined.snoc a).from_start, hjoined.id.trans hid.symm⟩
    refine ⟨before, hjoined, ?_⟩
    rw [watch_snoc]
    refine hheard.grow hcurrent hall haccount htold (hlost.trans ?_)
    rw [hheard.lost, hcurrent]
    constructor
    · rintro ⟨⟨_, hin⟩, hsome⟩
      exact ⟨hsome, by rw [hended hsome]; exact hin⟩
    · rintro ⟨hsome, hin⟩
      rw [hended hsome] at hin
      exact ⟨⟨rfl, hin⟩, hsome⟩

variable {s : State π ε}

theorem Tracked.idle (h : Tracked actions s) (ha : a.isJoin = false)
    (hsee : (watch actions).see a = watch actions) : Tracked (actions ++ [a]) s := by
  refine ⟨?_, ?_, fun subscriber hmem => ?_⟩
  · rw [watch_snoc, hsee]
    exact h.outage
  · rw [h.nextId, List.countP_append, List.countP_singleton, ha]
    rfl
  · obtain ⟨before, hjoined, hheard⟩ := h.heard subscriber hmem
    refine ⟨before, hjoined.snoc a, ?_⟩
    rw [watch_snoc, hsee]
    exact hheard

theorem current_of_outage (h : Tracked actions s) {outage : Outage ε} (houtage : s.outage = some outage) :
    ∃ current, (watch actions).current = some current ∧ outage.attempts = current.countP Action.isLost ∧
      outage.scheduled = current.any Action.isSchedule ∧ current.any Action.isReceived = false ∧
      current ≠ [] := by
  have hfollows := h.outage
  rw [houtage] at hfollows
  cases hcurrent : (watch actions).current with
  | none =>
    rw [hcurrent] at hfollows
    exact hfollows.elim
  | some current =>
    rw [hcurrent] at hfollows
    exact ⟨current, rfl, hfollows⟩

theorem current_of_calm (h : Tracked actions s) (houtage : s.outage = none) : (watch actions).current = none := by
  have hfollows := h.outage
  rw [houtage] at hfollows
  cases hcurrent : (watch actions).current with
  | none => rfl
  | some current =>
    rw [hcurrent] at hfollows
    exact hfollows.elim

theorem see_going {watch : Watch π ε} (hcurrent : watch.current = some outage) (ha : a.isReceived = false) :
    watch.see a = ⟨watch.ended, some (outage ++ [a])⟩ := by
  obtain ⟨ended, current⟩ := watch
  obtain rfl := hcurrent
  exact if_neg (by rw [ha]; exact Bool.false_ne_true)

theorem see_calm {watch : Watch π ε} (hcurrent : watch.current = none)
    (ha : a.isLost = false) : watch.see a = watch := by
  obtain ⟨ended, current⟩ := watch
  obtain rfl := hcurrent
  exact if_neg (by rw [ha]; exact Bool.false_ne_true)

theorem told_sent {item : Feed π ε} (hitem : item.isTold = true) (h : subscriber.send item = some sent) :
    sent.id = subscriber.id ∧ sent.lost = subscriber.lost ∧ told sent.feed = told subscriber.feed ++ [item] := by
  obtain ⟨_, rfl⟩ := send_eq_some h
  refine ⟨rfl, rfl, ?_⟩
  show told (subscriber.feed ++ [item]) = told subscriber.feed ++ [item]
  rw [told_snoc, hitem]
  rfl

variable {subscriber' : Subscriber π ε}

theorem tellLost_sent {item : Feed π ε} (hitem : item.isTold = true)
    (hmem : subscriber' ∈ (s.tellLost item).subscribers) :
    ∃ subscriber ∈ s.subscribers, subscriber'.id = subscriber.id ∧ subscriber'.lost = subscriber.lost ∧
      told subscriber'.feed = told subscriber.feed ++ if subscriber.lost then [item] else [] := by
  obtain ⟨subscriber, hsubscriber, hsent⟩ := List.mem_filterMap.mp hmem
  refine ⟨subscriber, hsubscriber, ?_⟩
  cases hlost : subscriber.lost with
  | false =>
    rw [hlost, if_neg Bool.false_ne_true] at hsent
    obtain rfl := Option.some.inj hsent
    exact ⟨rfl, hlost, (List.append_nil _).symm⟩
  | true =>
    rw [hlost, if_pos rfl] at hsent
    obtain ⟨hid, hflag, htold⟩ := told_sent hitem hsent
    exact ⟨hid, hflag.trans hlost, htold⟩

/-! ### A lost connection -/

theorem account_going (hne : outage ≠ []) (hreceived : a.isReceived = false)
    (hgoing : outage.any Action.isReceived = false)
    (hschedule : (outage ++ [a]).any Action.isSchedule = outage.any Action.isSchedule) :
    account (outage ++ [a]) = account outage := by
  unfold account
  have hstill : (outage ++ [a]).any Action.isReceived = false := by
    rw [List.any_append, List.any_cons, hreceived, hgoing]
    rfl
  rw [firstError_snoc hne, hschedule, hstill, hgoing]
  simp only [Bool.false_eq_true, if_false]

theorem Tracked.lostAgain (h : Tracked actions s) {outage : Outage ε} (houtage : s.outage = some outage)
    (error : Option ε) : Tracked (actions ++ [.lost error])
      { s with outage := some { outage with attempts := outage.attempts + 1, reason := error } } := by
  obtain ⟨current, hcurrent, hattempts, hscheduled, hgoing, hne⟩ := current_of_outage h houtage
  have hsee : (watch actions).see (.lost error) = ⟨(watch actions).ended, some (current ++ [.lost error])⟩ :=
    see_going hcurrent rfl
  have hunscheduled : (current ++ [Action.lost error]).any Action.isSchedule = current.any Action.isSchedule := by
    rw [List.any_append]
    exact Bool.or_false _
  have hall : ((watch actions).see (.lost error)).all = (watch actions).ended ++ [current ++ [.lost error]] := by
    rw [hsee]
    rfl
  have haccount : account (current ++ [.lost error]) = account current ++ [] := by
    rw [account_going hne rfl hgoing hunscheduled, List.append_nil]
  refine h.grow hcurrent hall haccount ?_ rfl rfl ?_ (fun _ => by rw [hsee])
  · rw [hsee]
    refine ⟨?_, ?_, ?_, List.append_ne_nil_of_right_ne_nil _ (List.cons_ne_nil _ _)⟩
    · rw [List.countP_append, ← hattempts]
      rfl
    · rw [hunscheduled]
      exact hscheduled
    · rw [List.any_append, hgoing]
      rfl
  · intro subscriber hmem
    refine ⟨subscriber, hmem, rfl, ?_, ?_⟩
    · rw [ite_self, List.append_nil]
    · rw [hsee]
      exact (and_iff_left rfl).symm

theorem Tracked.lostFirst (h : Tracked actions s) (houtage : s.outage = none) (error : Option ε) :
    Tracked (actions ++ [.lost error]) (s.loseTrack error) := by
  have hcurrent : (watch actions).current = none := current_of_calm h houtage
  have hsee : (watch actions).see (.lost error) = ⟨(watch actions).ended, some [.lost error]⟩ := by
    unfold Watch.see
    rw [hcurrent]
    rfl
  have hlose : s.loseTrack error =
      { s with
        outage := some ⟨1, error, false⟩
        gop := []
        gopBytes := 0
        gopValid := false
        subscribers := s.subscribers.filterMap fun subscriber =>
          Subscriber.send { subscriber with lost := true } (.lost error) } := by
    unfold State.loseTrack
    rw [houtage]
  rw [hlose]
  refine ⟨?_, ?_, fun subscriber' hmem => ?_⟩
  · rw [watch_snoc, hsee]
    exact ⟨rfl, rfl, rfl, List.cons_ne_nil _ _⟩
  · show s.nextId = _
    rw [h.nextId, List.countP_append]
    rfl
  · obtain ⟨subscriber, hsubscriber, hsent⟩ := List.mem_filterMap.mp hmem
    obtain ⟨hid, hflag, htold⟩ := told_sent rfl hsent
    obtain ⟨before, hjoined, hheard⟩ := h.heard subscriber hsubscriber
    have hjoined : Joined (actions ++ [.lost error]) subscriber' before :=
      ⟨(hjoined.snoc _).from_start, hjoined.id.trans hid.symm⟩
    have hall : (watch actions).all = (watch actions).ended := by
      unfold Watch.all
      rw [hcurrent]
      exact List.append_nil _
    have hbegun := hheard.begun
    rw [hall] at hbegun
    refine ⟨before, hjoined, ?_⟩
    rw [watch_snoc, hsee]
    refine ⟨?_, ?_, ?_⟩
    · show _ ≤ ((watch actions).ended ++ [[Action.lost error]]).length
      rw [List.length_append]
      exact Nat.le_add_right_of_le hbegun
    · show told subscriber'.feed = (((watch actions).ended ++ [[Action.lost error]]).drop _).flatMap account
      rw [htold, List.drop_append_of_le_length hbegun, List.flatMap_append, List.flatMap_singleton]
      exact congrArg (· ++ [Feed.lost error]) (hheard.told.trans (by rw [hall]))
    · exact ⟨fun _ => ⟨rfl, hbegun⟩, fun _ => hflag⟩

/-! ### The picture again -/

theorem Tracked.received (h : Tracked actions s) : Tracked (actions ++ [.received]) s.received := by
  cases houtage : s.outage with
  | none =>
    have hreceived : s.received = s := by
      unfold State.received
      rw [houtage]
    rw [hreceived]
    exact h.idle rfl (see_calm (current_of_calm h houtage) rfl)
  | some outage =>
    obtain ⟨current, hcurrent, hattempts, hscheduled, hgoing, hne⟩ := current_of_outage h houtage
    have hsee : (watch actions).see .received = ⟨(watch actions).ended ++ [current ++ [.received]], none⟩ := by
      unfold Watch.see
      rw [hcurrent]
      rfl
    have hreceived : s.received =
        { State.tellLost { s with outage := none } (.notice (.reconnected outage.attempts)) with
          subscribers :=
            (State.tellLost { s with outage := none } (.notice (.reconnected outage.attempts))).subscribers.map
              fun subscriber => { subscriber with lost := false } } := by
      unfold State.received
      rw [houtage]
    have haccount : account (current ++ [.received]) =
        account current ++ [.notice (.reconnected outage.attempts)] := by
      unfold account
      rw [firstError_snoc hne, hgoing, List.any_append, List.any_append, hgoing, List.countP_append, ← hattempts]
      simp [Action.isSchedule, Action.isReceived, Action.isLost]
    rw [hreceived]
    refine h.grow hcurrent (by rw [hsee]; exact List.append_nil _) haccount ?_ rfl rfl ?_ ?_
    · rw [hsee]
      trivial
    · intro subscriber' hmem
      obtain ⟨sent, hsent, rfl⟩ := List.mem_map.mp hmem
      obtain ⟨subscriber, hsubscriber, hid, _, htold⟩ := tellLost_sent rfl hsent
      refine ⟨subscriber, hsubscriber, hid, htold, ?_⟩
      rw [hsee]
      exact ⟨fun hfalse => absurd hfalse Bool.false_ne_true, fun hsome => absurd hsome.2 Bool.false_ne_true⟩
    · rw [hsee]
      exact fun hsome => absurd hsome Bool.false_ne_true

/-! ### The next attempt -/

theorem Tracked.schedule (h : Tracked actions s) : Tracked (actions ++ [.schedule]) s.schedule := by
  cases houtage : s.outage with
  | none =>
    have hschedule : s.schedule = s := by
      unfold State.schedule
      rw [houtage]
    rw [hschedule]
    exact h.idle rfl (see_calm (current_of_calm h houtage) rfl)
  | some outage =>
    obtain ⟨current, hcurrent, hattempts, hscheduled, hgoing, hne⟩ := current_of_outage h houtage
    have hsee : (watch actions).see .schedule = ⟨(watch actions).ended, some (current ++ [.schedule])⟩ :=
      see_going hcurrent rfl
    have hfollows : Follows (some { outage with scheduled := true }) (some (current ++ [.schedule])) := by
      refine ⟨?_, ?_, ?_, List.append_ne_nil_of_right_ne_nil _ (List.cons_ne_nil _ _)⟩
      · rw [List.countP_append, ← hattempts]
        rfl
      · rw [List.any_append]
        exact (Bool.or_true _).symm
      · rw [List.any_append, hgoing]
        rfl
    cases hat : outage.scheduled with
    | true =>
      have hschedule : s.schedule = s := by
        unfold State.schedule
        rw [houtage]
        simp only [hat, if_true]
      have hsame : (current ++ [Action.schedule]).any Action.isSchedule = current.any Action.isSchedule := by
        rw [List.any_append, ← hscheduled, hat]
        rfl
      have haccount : account (current ++ [.schedule]) = account current ++ [] := by
        rw [account_going hne rfl hgoing hsame, List.append_nil]
      rw [hschedule]
      refine h.grow hcurrent (by rw [hsee]; rfl) haccount ?_ rfl rfl ?_ (fun _ => by rw [hsee])
      · rw [hsee, houtage]
        have hoff : outage = { outage with scheduled := true } := by rw [← hat]
        rw [hoff]
        exact hfollows
      · intro subscriber hmem
        refine ⟨subscriber, hmem, rfl, by rw [ite_self, List.append_nil], ?_⟩
        rw [hsee]
        exact (and_iff_left rfl).symm
    | false =>
      have hschedule : s.schedule =
          State.tellLost { s with outage := some { outage with scheduled := true } } (.notice .retrying) := by
        unfold State.schedule
        rw [houtage]
        simp only [hat, Bool.false_eq_true, if_false]
      have haccount : account (current ++ [.schedule]) = account current ++ [.notice .retrying] := by
        unfold account
        rw [firstError_snoc hne, ← hscheduled, hat, hgoing, List.any_append, List.any_append, hgoing, ← hscheduled,
          hat]
        simp [Action.isSchedule, Action.isReceived]
      rw [hschedule]
      refine h.grow hcurrent (by rw [hsee]; rfl) haccount ?_ rfl rfl ?_ (fun _ => by rw [hsee])
      · rw [hsee]
        exact hfollows
      · intro subscriber' hmem
        obtain ⟨subscriber, hsubscriber, hid, hflag, htold⟩ := tellLost_sent rfl hmem
        refine ⟨subscriber, hsubscriber, hid, htold, ?_⟩
        rw [hsee, hflag]
        exact (and_iff_left rfl).symm

/-! ## 5. Any interleaving -/

theorem joiner_heard (h : Tracked actions s) {subscriber : Subscriber π ε} (hlost : subscriber.lost = false)
    (htold : told subscriber.feed = []) (hid : subscriber.id = s.nextId) :
    ∃ before, Joined (actions ++ [.join]) subscriber before ∧
      Heard (watch (actions ++ [.join])) (outages before).length subscriber := by
  refine ⟨actions, ⟨⟨[], rfl⟩, by rw [hid, h.nextId]⟩, ?_⟩
  rw [watch_snoc, see_quiet rfl]
  cases hcurrent : (watch actions).current with
  | none =>
    have hall : outages actions = (watch actions).ended := by
      unfold outages Watch.all
      rw [hcurrent]
      exact List.append_nil _
    refine ⟨?_, ?_, ?_⟩
    · rw [hall]
      exact (congrArg List.length (List.append_nil (watch actions).ended)).ge
    · rw [htold, hall]
      unfold Watch.all
      rw [Option.map_none, Option.toList_none, List.append_nil, List.drop_length]
      rfl
    · rw [hlost]
      exact ⟨fun hfalse => absurd hfalse Bool.false_ne_true, fun hsome => absurd hsome.1 Bool.false_ne_true⟩
  | some outage =>
    have hall : (outages actions).length = (watch actions).ended.length + 1 := by
      unfold outages Watch.all
      rw [hcurrent, List.length_append]
      rfl
    have hnow : (Watch.all ⟨(watch actions).ended, some (outage ++ [.join])⟩).length =
        (watch actions).ended.length + 1 := by
      unfold Watch.all
      rw [List.length_append]
      rfl
    rw [hall]
    refine ⟨hnow.ge, ?_, ?_⟩
    · rw [htold]
      exact (congrArg (List.flatMap account) (List.drop_eq_nil_of_le hnow.le)).symm
    · rw [hlost]
      refine ⟨fun hfalse => absurd hfalse Bool.false_ne_true, fun hsome => ?_⟩
      exact absurd hsome.2 (Nat.not_succ_le_self _)

theorem welcome_untold (s : State π ε) : told s.welcome.1 = [] := by
  unfold State.welcome
  split
  · rfl
  · split
    · rfl
    · split <;> rfl

theorem Tracked.join (h : Tracked actions s) : Tracked (actions ++ [.join]) s.join := by
  refine h.quiet rfl rfl rfl fun subscriber hmem => ?_
  obtain hold | hnew := List.mem_append.mp hmem
  · exact .inl ⟨subscriber, hold, .refl _⟩
  · obtain rfl := List.mem_singleton.mp hnew
    have hdone : told (s.welcome.1 ++ (if s.closed then [.done none] else []) : List (Feed π ε)) = [] := by
      cases s.closed with
      | false => exact (congrArg told (List.append_nil _)).trans (welcome_untold s)
      | true => exact (told_snoc _ _).trans ((List.append_nil _).trans (welcome_untold s))
    exact .inr (joiner_heard h rfl hdone rfl)

theorem broadcast_alike {item : Feed π ε} (hitem : item.isTold = false)
    (hmem : subscriber' ∈ (s.broadcast item).subscribers) :
    ∃ subscriber ∈ s.subscribers, Alike subscriber subscriber' := by
  obtain ⟨subscriber, hsubscriber, hsent⟩ := List.mem_filterMap.mp hmem
  exact ⟨subscriber, hsubscriber, send_alike hitem hsent⟩

theorem change_alike {id : Nat} {f : Subscriber π ε → Subscriber π ε}
    (hf : ∀ subscriber, Alike subscriber (f subscriber)) (hmem : subscriber' ∈ (s.change id f).subscribers) :
    ∃ subscriber ∈ s.subscribers, Alike subscriber subscriber' := by
  obtain ⟨subscriber, hsubscriber, rfl⟩ := List.mem_map.mp hmem
  refine ⟨subscriber, hsubscriber, ?_⟩
  by_cases hid : subscriber.id = id
  · rw [if_pos hid]
    exact hf subscriber
  · rw [if_neg hid]
    exact .refl _

theorem publish_quiet (s : State π ε) (number : Nat) (packet : MediaPacket π) :
    (s.publish number packet).outage = s.outage ∧ (s.publish number packet).nextId = s.nextId ∧
      (s.publish number packet).subscribers = s.subscribers.filterMap (Subscriber.publish number packet) := by
  unfold State.publish State.keep State.restart
  by_cases hkey : packet.isKey = true
  · simp only [hkey, if_true]
    split <;> exact ⟨rfl, rfl, rfl⟩
  · simp only [hkey, Bool.false_eq_true, if_false]
    split
    · split <;> exact ⟨rfl, rfl, rfl⟩
    · exact ⟨rfl, rfl, rfl⟩

/-- **One step.** -/
theorem Tracked.step {s s' : State π ε} (h : Tracked actions s)
    (hstep : step s a = some s') : Tracked (actions ++ [a]) s' := by
  cases a with
  | newTrack =>
    obtain rfl := Option.some.inj hstep
    exact h.quiet rfl rfl rfl fun subscriber hmem => .inl (broadcast_alike rfl hmem)
  | publish packet =>
    obtain ⟨number, _, rfl⟩ := Option.map_eq_some_iff.mp hstep
    obtain ⟨houtage, hnext, hsubs⟩ := publish_quiet s number packet
    refine h.quiet rfl houtage hnext fun subscriber hmem => .inl ?_
    rw [hsubs] at hmem
    obtain ⟨before, hbefore, hsent⟩ := List.mem_filterMap.mp hmem
    exact ⟨before, hbefore, publish_alike hsent⟩
  | lost error =>
    obtain rfl := Option.some.inj hstep
    cases houtage : s.outage with
    | none => exact h.lostFirst houtage error
    | some outage =>
      have hlose : s.loseTrack error =
          { s with outage := some { outage with attempts := outage.attempts + 1, reason := error } } := by
        unfold State.loseTrack
        rw [houtage]
      rw [hlose]
      exact h.lostAgain houtage error
  | received =>
    obtain rfl := Option.some.inj hstep
    exact h.received
  | schedule =>
    obtain rfl := Option.some.inj hstep
    exact h.schedule
  | close error =>
    obtain rfl := Option.some.inj hstep
    exact h.quiet rfl rfl rfl fun subscriber hmem => absurd hmem List.not_mem_nil
  | join =>
    obtain rfl := Option.some.inj hstep
    exact h.join
  | leave id =>
    obtain rfl := Option.some.inj hstep
    exact h.quiet rfl rfl rfl fun subscriber hmem => .inl ⟨subscriber, (List.mem_filter.mp hmem).1, .refl _⟩
  | take id =>
    obtain rfl := Option.some.inj hstep
    exact h.quiet rfl rfl rfl fun subscriber hmem => .inl (change_alike take_alike hmem)
  | hangUp id =>
    obtain rfl := Option.some.inj hstep
    have hgone : ∀ subscriber : Subscriber π ε, Alike subscriber { subscriber with gone := true } :=
      fun _ => ⟨rfl, rfl, rfl⟩
    exact h.quiet rfl rfl rfl fun subscriber hmem => .inl (change_alike hgone hmem)

/-- **Any run.** -/
theorem Tracked.run : ∀ {later actions : List (Action π ε)} {s s' : State π ε}, Tracked actions s →
    run Reader.step s later = some s' → Tracked (actions ++ later) s'
  | [], actions, s, s', h, hrun => by
      obtain rfl := Option.some.inj hrun
      rw [List.append_nil]
      exact h
  | a :: later, actions, s, s', h, hrun => by
      obtain ⟨next, hnext, hrun⟩ := Option.bind_eq_some_iff.mp hrun
      rw [List.append_cons]
      exact (h.step hnext).run hrun

theorem tracked_initial : Tracked [] (State.initial : State π ε) :=
  ⟨trivial, rfl, fun _ hmem => absurd hmem List.not_mem_nil⟩

/-- **Each outage is told once, to those that saw it.** In every state that any interleaving reaches, a
    stream's notices are the accounts of the outages that began after it joined, one after the other: a
    `Lost`, one `Retrying` if an attempt was scheduled, and one `Reconnected` with the number of lost calls
    if the picture came back. An outage that was on when it joined is not among them. -/
theorem told_since_join (actions : List (Action π ε)) (s : State π ε)
    (hrun : Library.run step State.initial actions = some s) (subscriber : Subscriber π ε)
    (hmem : subscriber ∈ s.subscribers) :
    ∃ before after, actions = before ++ .join :: after ∧ before.countP Action.isJoin = subscriber.id ∧
      told subscriber.feed = ((outages actions).drop (outages before).length).flatMap account := by
  have htracked : Tracked actions s := tracked_initial.run hrun
  obtain ⟨before, ⟨⟨after, hactions⟩, hid⟩, hheard⟩ := htracked.heard subscriber hmem
  exact ⟨before, after, hactions, hid, hheard.told⟩

/-- Two streams, one that joins in the first outage, and the second outage. -/
def sampleActions : List (Action Unit Nat) :=
  [.join, .newTrack, .lost (some 4), .schedule, .join, .lost none, .schedule, .received, .publish ⟨true, 1, ()⟩,
    .lost none, .received]

theorem sample_told :
    ∃ s, Library.run step State.initial sampleActions = some s ∧
      s.subscribers.map (fun subscriber => told subscriber.feed) =
        [[.lost (some 4), .notice .retrying, .notice (.reconnected 2), .lost none, .notice (.reconnected 1)],
          [.lost none, .notice (.reconnected 1)]] ∧
      ∀ subscriber ∈ s.subscribers, ∃ before after, sampleActions = before ++ .join :: after ∧
        before.countP Action.isJoin = subscriber.id ∧
        told subscriber.feed = ((outages sampleActions).drop (outages before).length).flatMap account :=
  ⟨_, rfl, rfl, told_since_join sampleActions _ rfl⟩

end Ceres.Media.Reader
