/-
  File:      Ceres/Console/Chunked.lean
  Subject:   READING AN INIT SEGMENT AS ITS BYTES ARRIVE (`console/app/mp4.ts`).

  The console reads a growing start of the stream until there is an answer, so the answer must not depend
  on where the stream was cut.

  * `openMoov` -- the content of an open-ended `moov` the reader comes to, which is taken for complete with
    whatever has arrived;
  * `readInitSegment_append` -- without one, an answer stands whatever arrives behind it;
  * `Readable` -- some boxes of a `moov` that give codecs;
  * **`readInitSegment_chunked`** -- no cut gives another answer exactly when there is no open-ended `moov`
    of whose first boxes some are readable;
  * `open_moov_cut` -- an open-ended `moov` that is unknown at its header and known at its end.
-/
import Ceres.Console.InitSegment

namespace Ceres.Console.Mp4

open Ceres.Library

/-! ## 1. The open-ended `moov` -/

def openMoovFrom : Nat → List UInt8 → Option (List UInt8)
  | 0, _ => none
  | fuel + 1, bytes =>
    match turn bytes with
    | .ended => none
    | .cut => none
    | .box header size =>
      if (boxAt bytes header size).type = "moov".toList then
        if getUint32 bytes 0 = 0 then some (boxAt bytes header size).body else none
      else if (boxAt bytes header size).type = "mdat".toList ∨ (boxAt bytes header size).type = "moof".toList then
        none
      else openMoovFrom fuel (bytes.drop size)

/-- The content of the `moov` box the reader comes to, when its size is open. -/
def openMoov (bytes : List UInt8) : Option (List UInt8) := openMoovFrom bytes.length bytes

/-- Boxes of which one is an `mvex`, one a track, and every track has a codec that is known. -/
def Readable (found : List Box) : Prop :=
  (∃ box ∈ found, box.type = "mvex".toList) ∧ (∃ box ∈ found, box.type = "trak".toList) ∧
    ∀ box ∈ found, box.type = "trak".toList → (trakCodec box.body).isSome

/-- No open-ended `moov`, or one of whose first boxes, as many as one takes, none are readable. -/
def Settled (bytes : List UInt8) : Prop :=
  ∀ content, openMoov bytes = some content →
    ∀ (found : List Box) (rest : List Yield), boxes content = found.map .box ++ rest → ¬ Readable found

/-! ## 2. When the content of a `moov` gives codecs -/

theorem trakCodecs_isSome (yields : List Yield) : (trakCodecs yields).isSome ↔
      ∀ box ∈ whole yields, box.type = "trak".toList → (trakCodec box.body).isSome := by
  induction yields with
  | nil => simp [trakCodecs]
  | cons yielded rest ih =>
    cases yielded with
    | cut => exact ih
    | box box =>
      rw [trakCodecs, whole_box, List.forall_mem_cons, ← ih]
      by_cases htype : box.type = "trak".toList
      · rw [if_neg (not_not.mpr htype)]
        cases hcodec : trakCodec box.body with
        | none => simp [htype]
        | some codec => simp
      · rw [if_pos htype]
        exact ⟨fun h => ⟨fun hbox => absurd hbox htype, h⟩, And.right⟩

theorem trakCodecs_nil {yields : List Yield} {codecs : List Text} (h : trakCodecs yields = some codecs) :
    codecs ≠ [] ↔ ∃ box ∈ whole yields, box.type = "trak".toList := by
  induction yields generalizing codecs with
  | nil =>
    cases h
    simp
  | cons yielded rest ih =>
    cases yielded with
    | cut => exact ih h
    | box box =>
      rw [trakCodecs] at h
      rw [whole_box]
      by_cases htype : box.type = "trak".toList
      · rw [if_neg (not_not.mpr htype)] at h
        have hbox : ∃ box' ∈ box :: whole rest, box'.type = "trak".toList := ⟨box, List.mem_cons_self, htype⟩
        cases hcodec : trakCodec box.body with
        | none => rw [hcodec] at h; cases h
        | some codec =>
          rw [hcodec] at h
          obtain ⟨others, _, rfl⟩ := Option.map_eq_some_iff.mp h
          exact ⟨fun _ => hbox, fun _ => List.cons_ne_nil _ _⟩
      · rw [if_pos htype] at h
        rw [ih h, List.exists_mem_cons_iff]
        exact ⟨.inr, fun h => h.resolve_left htype⟩

theorem child_ne_none (bytes : List UInt8) (type : Text) :
    child bytes type ≠ none ↔ ∃ box ∈ whole (boxes bytes), box.type = type := by
  rw [child_eq, Ne, Option.map_eq_none_iff, List.find?_eq_none]
  simp

theorem readMoov_readable {body : List UInt8} (h : Readable (whole (boxes body))) :
    ∃ codecs duration, readMoov body = .codecs codecs duration := by
  obtain ⟨hmvex, htrak, hcodec⟩ := h
  obtain ⟨codecs, hcodecs⟩ := Option.isSome_iff_exists.mp ((trakCodecs_isSome _).mpr hcodec)
  have hne : codecs ≠ [] := (trakCodecs_nil hcodecs).mpr htrak
  unfold readMoov
  rw [if_neg ((child_ne_none ..).mpr hmvex), hcodecs]
  cases codecs with
  | nil => exact absurd rfl hne
  | cons codec codecs => exact ⟨_, _, rfl⟩

theorem readMoov_unknown {body : List UInt8} (h : ¬ Readable (whole (boxes body))) : readMoov body = .unknown := by
  unfold readMoov
  by_cases hmvex : child body "mvex".toList = none
  · rw [if_pos hmvex]
  · rw [if_neg hmvex]
    cases hcodecs : trakCodecs (boxes body) with
    | none => rfl
    | some codecs =>
      cases codecs with
      | nil => rfl
      | cons codec codecs =>
        refine absurd ⟨(child_ne_none ..).mp hmvex, (trakCodecs_nil hcodecs).mp (List.cons_ne_nil _ _), ?_⟩ h
        exact (trakCodecs_isSome _).mp (by rw [hcodecs]; rfl)

/-! ## 3. A codec that is known stays known -/

theorem avcCodec_isSome (type : Text) (config : List UInt8) :
    (avcCodec type config).isSome ↔ 4 ≤ config.length := by
  unfold avcCodec
  split
  · simp only [Option.isSome_none, Bool.false_eq_true, false_iff]
    omega
  · simp only [Option.isSome_some, true_iff]
    omega

theorem hevcCodec_isSome (type : Text) (config : List UInt8) :
    (hevcCodec type config).isSome ↔ 13 ≤ config.length := by
  unfold hevcCodec
  split
  · simp only [Option.isSome_none, Bool.false_eq_true, false_iff]
    omega
  · simp only [Option.isSome_some, true_iff]
    omega

/-- A configuration box that is long enough stays so. -/
theorem bind_child_isSome {bytes bytes' : List UInt8} (hle : bytes <+: bytes') {type : Text} {least : Nat}
    {codec : List UInt8 → Option Text} (hcodec : ∀ config, (codec config).isSome ↔ least ≤ config.length)
    (h : ((child bytes type).bind codec).isSome) : ((child bytes' type).bind codec).isSome := by
  obtain ⟨more, rfl⟩ := hle
  cases hchild : child bytes type with
  | none => rw [hchild] at h; cases h
  | some config =>
    obtain ⟨config', hchild', hlonger⟩ := child_append hchild more
    rw [hchild, Option.bind_some, hcodec] at h
    rw [hchild', Option.bind_some, hcodec]
    exact h.trans hlonger.length_le

theorem drop_isPrefix {bytes bytes' : List UInt8} (h : bytes <+: bytes') (n : Nat) : bytes.drop n <+: bytes'.drop n := by
  obtain ⟨more, rfl⟩ := h
  rw [List.drop_append]
  exact List.prefix_append ..

theorem sampleEntryCodec_larger {entry entry' : Box} (hlarger : Larger entry entry')
    (h : (sampleEntryCodec entry).isSome) : (sampleEntryCodec entry').isSome := by
  obtain ⟨htype, hbody⟩ := hlarger
  have hchildren := drop_isPrefix hbody visualSampleEntryBytes
  unfold sampleEntryCodec at h ⊢
  rw [← htype]
  split at h
  · rename_i hkind
    rw [if_pos hkind]
    exact bind_child_isSome hchildren (avcCodec_isSome entry.type) h
  · rename_i hother
    rw [if_neg hother]
    split at h
    · rename_i hkind
      rw [if_pos hkind]
      exact bind_child_isSome hchildren (hevcCodec_isSome entry.type) h
    · rename_i hother'
      rw [if_neg hother']
      split at h
      · rename_i hkind
        split at h
        · rename_i hlong
          rw [if_pos hkind, if_pos (hlong.trans hbody.length_le)]
          rfl
        · cases h
      · cases h

variable {bytes : List UInt8}

/-- The first box yielded is still the first. -/
theorem head_larger {entry : Box} (h : (boxes bytes).head? = some (.box entry))
    (more : List UInt8) : ∃ entry', (boxes (bytes ++ more)).head? = some (.box entry') ∧ Larger entry entry' := by
  have hgrown := boxes_grown bytes more
  generalize boxes bytes = xs at h hgrown
  generalize boxes (bytes ++ more) = ys at hgrown
  cases hgrown with
  | stops => cases h
  | cut => cases h
  | opened type body more' =>
    cases h
    exact ⟨_, rfl, rfl, List.prefix_append ..⟩
  | cons box _ =>
    cases h
    exact ⟨entry, rfl, .refl entry⟩

theorem trakCodec_larger {body body' : List UInt8} (hle : body <+: body') (h : (trakCodec body).isSome) :
    (trakCodec body').isSome := by
  obtain ⟨more, rfl⟩ := hle
  unfold trakCodec at h ⊢
  cases hstsd : descend body ["mdia".toList, "minf".toList, "stbl".toList, "stsd".toList] with
  | none => rw [hstsd] at h; cases h
  | some stsd =>
    obtain ⟨stsd', hstsd', hlonger⟩ := descend_append _ hstsd more
    obtain ⟨tail, htail⟩ := drop_isPrefix hlonger 8
    rw [hstsd] at h
    rw [hstsd']
    simp only at h ⊢
    cases hhead : (boxes (stsd.drop 8)).head? with
    | none => rw [hhead] at h; cases h
    | some yielded =>
      cases yielded with
      | cut => rw [hhead] at h; cases h
      | box entry =>
        obtain ⟨entry', hhead', hlarger⟩ := head_larger hhead tail
        rw [htail] at hhead'
        rw [hhead] at h
        rw [hhead']
        exact sampleEntryCodec_larger hlarger h

theorem larger_mem {found found' : List Box} (hle : List.Forall₂ Larger found found') :
    (∀ box ∈ found, ∃ box' ∈ found', Larger box box') ∧ ∀ box' ∈ found', ∃ box ∈ found, Larger box box' := by
  induction hle with
  | nil => exact ⟨fun _ h => (List.not_mem_nil h).elim, fun _ h => (List.not_mem_nil h).elim⟩
  | @cons first first' _ _ hlarger _ ih =>
    constructor
    · intro box hmem
      rcases List.mem_cons.mp hmem with rfl | hmem
      · exact ⟨first', List.mem_cons_self, hlarger⟩
      · obtain ⟨box', hmem', hbox⟩ := ih.1 box hmem
        exact ⟨box', List.mem_cons_of_mem _ hmem', hbox⟩
    · intro box' hmem
      rcases List.mem_cons.mp hmem with rfl | hmem
      · exact ⟨first, List.mem_cons_self, hlarger⟩
      · obtain ⟨box, hmem', hbox⟩ := ih.2 box' hmem
        exact ⟨box, List.mem_cons_of_mem _ hmem', hbox⟩

theorem readable_larger {found found' : List Box} (hle : List.Forall₂ Larger found found') (h : Readable found) :
    Readable found' := by
  obtain ⟨hforth, hback⟩ := larger_mem hle
  obtain ⟨⟨mvex, hmvex, htype⟩, ⟨trak, htrak, htype'⟩, hcodec⟩ := h
  refine ⟨?_, ?_, fun box' hmem' hbox' => ?_⟩
  · obtain ⟨mvex', hmem', hlarger⟩ := hforth mvex hmvex
    exact ⟨mvex', hmem', hlarger.1.symm.trans htype⟩
  · obtain ⟨trak', hmem', hlarger⟩ := hforth trak htrak
    exact ⟨trak', hmem', hlarger.1.symm.trans htype'⟩
  · obtain ⟨box, hmem, hlarger⟩ := hback box' hmem'
    exact trakCodec_larger hlarger.2 (hcodec box hmem (hlarger.1.trans hbox'))

/-! ## 4. Cutting the stream -/

theorem openMoovFrom_fuel : ∀ (n m : Nat) (bytes : List UInt8), bytes.length ≤ n → bytes.length ≤ m →
    openMoovFrom n bytes = openMoovFrom m bytes
  | 0, 0, _, _, _ => rfl
  | 0, m + 1, bytes, hn, _ => by
      have hnil : bytes = [] := List.eq_nil_of_length_eq_zero (Nat.le_zero.mp hn)
      subst hnil
      rfl
  | n + 1, 0, bytes, _, hm => by
      have hnil : bytes = [] := List.eq_nil_of_length_eq_zero (Nat.le_zero.mp hm)
      subst hnil
      rfl
  | n + 1, m + 1, bytes, hn, hm => by
      unfold openMoovFrom
      cases hturn : turn bytes with
      | ended => rfl
      | cut => rfl
      | box h s =>
        obtain ⟨h₁, h₂, h₃⟩ := turn_box hturn
        have hlen : (bytes.drop s).length = bytes.length - s := List.length_drop
        simp only [openMoovFrom_fuel n m (bytes.drop s) (by omega) (by omega)]

theorem openMoov_box {h s : Nat} (hturn : turn bytes = .box h s) : openMoov bytes =
      if (boxAt bytes h s).type = "moov".toList then
        if getUint32 bytes 0 = 0 then some (boxAt bytes h s).body else none
      else if (boxAt bytes h s).type = "mdat".toList ∨ (boxAt bytes h s).type = "moof".toList then none
      else openMoov (bytes.drop s) := by
  obtain ⟨h₁, h₂, h₃⟩ := turn_box hturn
  obtain ⟨n, hn⟩ : ∃ n, bytes.length = n + 1 := ⟨bytes.length - 1, by omega⟩
  have hlen : (bytes.drop s).length = bytes.length - s := List.length_drop
  rw [openMoov, hn, openMoovFrom, hturn]
  simp only
  rw [openMoovFrom_fuel n (bytes.drop s).length (bytes.drop s) (by omega) le_rfl]
  rfl

theorem openMoov_ended (h : turn bytes = .ended) : openMoov bytes = none := by
  unfold openMoov
  cases bytes.length with
  | zero => rfl
  | succ n => rw [openMoovFrom, h]

theorem openMoov_cut (h : turn bytes = .cut) : openMoov bytes = none := by
  unfold openMoov
  cases bytes.length with
  | zero => rfl
  | succ n => rw [openMoovFrom, h]

/-- The stream up to an open-ended `moov` leads to whatever content stands behind its header. -/
theorem openMoov_split : ∀ (n : Nat) (bytes : List UInt8) {content : List UInt8}, bytes.length ≤ n →
    openMoov bytes = some content → ∃ front, bytes = front ++ content ∧
      ∀ content', openMoov (front ++ content') = some content' ∧
        ∀ length, scan length (boxes (front ++ content')) = readMoov content'
  | 0, bytes, content, hn, hopen => by
      rw [List.eq_nil_of_length_eq_zero (Nat.le_zero.mp hn)] at hopen
      cases hopen
  | n + 1, bytes, content, hn, hopen => by
      cases hturn : turn bytes with
      | ended => rw [openMoov_ended hturn] at hopen; cases hopen
      | cut => rw [openMoov_cut hturn] at hopen; cases hopen
      | box h s =>
        obtain ⟨h₁, h₂, h₃⟩ := turn_box hturn
        have hlen : (bytes.drop s).length = bytes.length - s := List.length_drop
        rw [openMoov_box hturn] at hopen
        by_cases hsize : getUint32 bytes 0 = 0
        · -- the open-ended box itself: its header is the front
          have height : 8 ≤ bytes.length := by omega
          rw [turn_open height hsize] at hturn
          cases hturn
          have hbox : boxAt bytes 8 bytes.length = ⟨fromCharCode ((bytes.drop 4).take 4), bytes.drop 8⟩ := by
            rw [boxAt, List.take_length]
          have hnone : openMoov (bytes.drop bytes.length) = none := by rw [List.drop_length]; rfl
          rw [hbox, hnone, if_pos hsize] at hopen
          have hmoov : fromCharCode ((bytes.drop 4).take 4) = "moov".toList := by
            by_contra hne
            rw [if_neg hne] at hopen
            split at hopen <;> cases hopen
          rw [if_pos hmoov] at hopen
          cases hopen
          refine ⟨bytes.take 8, (List.take_append_drop 8 bytes).symm, fun content' => ?_⟩
          have hfront : (bytes.take 8).length = 8 := List.length_take_of_le height
          have height' : 8 ≤ (bytes.take 8 ++ content').length := by rw [List.length_append]; omega
          have hread : getUint32 (bytes.take 8 ++ content') 0 = getUint32 bytes 0 :=
            read_take_append height (by omega) content'
          have hsize' : getUint32 (bytes.take 8 ++ content') 0 = 0 := hread.trans hsize
          have htype' : ((bytes.take 8 ++ content').drop 4).take 4 = (bytes.drop 4).take 4 := by
            rw [code_append hfront.ge, List.drop_take, List.take_take]
            rfl
          have hboxes : boxes (bytes.take 8 ++ content') = [.box ⟨"moov".toList, content'⟩] := by
            rw [boxes_open height' hsize', htype', hmoov, List.drop_left' hfront]
          have hbox' : boxAt (bytes.take 8 ++ content') 8 (bytes.take 8 ++ content').length =
              ⟨"moov".toList, content'⟩ := by
            rw [boxAt, List.take_length, htype', hmoov, List.drop_left' hfront]
          refine ⟨?_, fun length => ?_⟩
          · rw [openMoov_box (turn_open height' hsize'), hbox', if_pos rfl, if_pos hsize']
          · rw [hboxes, scan, if_pos rfl]
        · rw [if_neg hsize] at hopen
          by_cases hmoov : (boxAt bytes h s).type = "moov".toList
          · rw [if_pos hmoov] at hopen
            cases hopen
          rw [if_neg hmoov] at hopen
          by_cases hmedia : (boxAt bytes h s).type = "mdat".toList ∨ (boxAt bytes h s).type = "moof".toList
          · rw [if_pos hmedia] at hopen
            cases hopen
          rw [if_neg hmedia] at hopen
          obtain ⟨front, hsplit, hfront⟩ := openMoov_split n (bytes.drop s) (by omega) hopen
          refine ⟨bytes.take s ++ front, by rw [List.append_assoc, ← hsplit, List.take_append_drop],
            fun content' => ?_⟩
          obtain ⟨hopen', hscan'⟩ := hfront content'
          rw [List.append_assoc]
          have hdrop : (bytes.take s ++ (front ++ content')).drop s = front ++ content' :=
            List.drop_left' (List.length_take_of_le h₃)
          refine ⟨?_, fun length => ?_⟩
          · rw [openMoov_box (turn_take_append hturn hsize _), boxAt_take_append hturn, if_neg hmoov, if_neg hmedia,
              hdrop, hopen']
          · rw [boxes_take_append hturn hsize, scan, if_neg hmoov, if_neg hmedia, hscan' length]

/-- Without an open-ended `moov` an answer stands whatever arrives behind it. -/
theorem scan_append : ∀ (n : Nat) (bytes more : List UInt8), bytes.length ≤ n → openMoov bytes = none →
    scan 0 (boxes bytes) ≠ .incomplete → scan 0 (boxes (bytes ++ more)) = scan 0 (boxes bytes)
  | 0, bytes, more, hn, _, hscan => by
      rw [List.eq_nil_of_length_eq_zero (Nat.le_zero.mp hn)] at hscan
      exact absurd rfl hscan
  | n + 1, bytes, more, hn, hopen, hscan => by
      cases hturn : turn bytes with
      | ended => rw [boxes_ended hturn] at hscan; exact absurd rfl hscan
      | cut => rw [boxes_cut hturn] at hscan; exact absurd rfl hscan
      | box h s =>
        obtain ⟨h₁, h₂, h₃⟩ := turn_box hturn
        have hlen : (bytes.drop s).length = bytes.length - s := List.length_drop
        rw [openMoov_box hturn] at hopen
        by_cases hsize : getUint32 bytes 0 = 0
        · have height : 8 ≤ bytes.length := by omega
          have hsize' : getUint32 (bytes ++ more) 0 = 0 := by rw [getUint32_append (by omega), hsize]
          have htype' := code_append height more
          have htype : (boxAt bytes h s).type = fromCharCode ((bytes.drop 4).take 4) := rfl
          rw [htype, if_pos hsize] at hopen
          rw [boxes_open height hsize] at hscan ⊢
          rw [boxes_open (by rw [List.length_append]; omega) hsize', htype']
          generalize fromCharCode ((bytes.drop 4).take 4) = type at hopen hscan ⊢
          have hone : ∀ body, scan 0 [.box ⟨type, body⟩] =
              if type = "moov".toList then readMoov body
              else if type = "mdat".toList ∨ type = "moof".toList then .unknown else .incomplete :=
            fun _ => rfl
          rw [hone] at hscan
          rw [hone, hone]
          by_cases hmoov : type = "moov".toList
          · rw [if_pos hmoov] at hopen
            cases hopen
          by_cases hmedia : type = "mdat".toList ∨ type = "moof".toList
          · rw [if_neg hmoov, if_neg hmoov, if_pos hmedia]
          · rw [if_neg hmoov, if_neg hmedia] at hscan
            exact absurd rfl hscan
        · have hsplit : bytes ++ more = bytes.take s ++ (bytes.drop s ++ more) := by
            rw [← List.append_assoc, List.take_append_drop]
          rw [hsplit, boxes_take_append hturn hsize]
          rw [boxes_box hturn] at hscan ⊢
          rw [scan] at hscan
          rw [scan, scan]
          by_cases hmoov : (boxAt bytes h s).type = "moov".toList
          · rw [if_pos hmoov, if_pos hmoov]
          by_cases hmedia : (boxAt bytes h s).type = "mdat".toList ∨ (boxAt bytes h s).type = "moof".toList
          · rw [if_neg hmoov, if_neg hmoov, if_pos hmedia, if_pos hmedia]
          · rw [if_neg hmoov, if_neg hmedia] at hopen hscan
            rw [if_neg hmoov, if_neg hmoov, if_neg hmedia, if_neg hmedia]
            exact scan_append n (bytes.drop s) more (by omega) hopen hscan

/-- Short of the most bytes worth waiting on, the length of what has arrived does not matter. -/
theorem scan_short {length : Nat} (h : length ≤ maxInitSegmentBytes) : ∀ yields, scan length yields = scan 0 yields
  | [] => by rw [scan, scan, if_neg (by omega), if_neg (by omega)]
  | .cut :: _ => by rw [scan, scan, if_neg (by omega), if_neg (by omega)]
  | .box box :: rest => by rw [scan, scan, scan_short h rest]

/-- Without an open-ended `moov`, an answer to the first bytes is the answer to them all. -/
theorem readInitSegment_append {bytes more : List UInt8} (hlen : (bytes ++ more).length ≤ maxInitSegmentBytes)
    (hopen : openMoov bytes = none) (hanswer : readInitSegment bytes ≠ .incomplete) :
    readInitSegment (bytes ++ more) = readInitSegment bytes := by
  have hshort : bytes.length ≤ maxInitSegmentBytes := by
    rw [List.length_append] at hlen
    omega
  have hread : readInitSegment bytes = scan 0 (boxes bytes) := scan_short hshort _
  have hread' : readInitSegment (bytes ++ more) = scan 0 (boxes (bytes ++ more)) := scan_short hlen _
  rw [hread] at hanswer ⊢
  rw [hread']
  exact scan_append bytes.length bytes more le_rfl hopen hanswer

theorem not_readable {content more : List UInt8}
    (h : ∀ (found : List Box) (rest : List Yield), boxes (content ++ more) = found.map .box ++ rest →
      ¬ Readable found) : ¬ Readable (whole (boxes content)) := by
  obtain ⟨same, rest, heq, hsame⟩ := (boxes_grown content more).whole
  exact fun hreadable => h same rest heq (readable_larger hsame hreadable)

/-- **No cut of a stream gives another answer** exactly when the reader comes to no open-ended `moov` of whose
    first boxes some are readable. -/
theorem readInitSegment_chunked (bytes : List UInt8) (hlen : bytes.length ≤ maxInitSegmentBytes) :
    (∀ start, start <+: bytes → readInitSegment start ≠ .incomplete →
      readInitSegment bytes = readInitSegment start) ↔ Settled bytes := by
  constructor
  · intro hsame content hopen found rest hfound hreadable
    obtain ⟨front, rfl, hfront⟩ := openMoov_split bytes.length bytes le_rfl hopen
    obtain ⟨first, back, rfl, hfirst⟩ := boxes_first found hfound
    have hread : ∀ content', readInitSegment (front ++ content') = readMoov content' := fun content' =>
      (hfront content').2 _
    -- at its header the box has no content, and behind the readable boxes it has codecs
    have hheader : readInitSegment (front ++ []) = .unknown := by
      rw [hread]
      exact readMoov_unknown fun h => by
        obtain ⟨⟨_, hmem, _⟩, _⟩ := h
        cases hmem
    obtain ⟨codecs, duration, hcodecs⟩ : ∃ codecs duration, readMoov first = .codecs codecs duration :=
      readMoov_readable (by rw [hfirst, whole_map]; exact hreadable)
    have h₁ := hsame (front ++ []) ⟨first ++ back, by rw [List.append_nil]⟩ (by rw [hheader]; decide)
    have h₂ := hsame (front ++ first) ⟨back, by rw [List.append_assoc]⟩ (by
      rw [hread, hcodecs]
      exact fun h => by cases h)
    rw [h₁, hheader, hread, hcodecs] at h₂
    cases h₂
  · rintro hsettled start ⟨more, rfl⟩ hanswer
    cases hopen : openMoov start with
    | none => exact readInitSegment_append hlen hopen hanswer
    | some content =>
      obtain ⟨front, rfl, hfront⟩ := openMoov_split start.length start le_rfl hopen
      rw [List.append_assoc] at hsettled ⊢
      obtain ⟨hopen', hscan'⟩ := hfront (content ++ more)
      have hnone := hsettled (content ++ more) hopen'
      have hbefore : readMoov content = .unknown := readMoov_unknown (not_readable hnone)
      have hafter : readMoov (content ++ more) = .unknown :=
        readMoov_unknown (@not_readable (content ++ more) [] (by rwa [List.append_nil]))
      rw [readInitSegment, hscan', hafter, readInitSegment, (hfront content).2, hbefore]

/-- A `moov` whose size is written gives one answer, wherever the stream is cut. -/
theorem five_seconds_chunked :
    openMoov fiveSeconds.bytes = none ∧
      ∀ start, start <+: fiveSeconds.bytes → readInitSegment start ≠ .incomplete →
        readInitSegment fiveSeconds.bytes = readInitSegment start := by
  have hnone : openMoov fiveSeconds.bytes = none := by decide +kernel
  refine ⟨hnone, (readInitSegment_chunked fiveSeconds.bytes (by decide +kernel)).mpr fun content hopen => ?_⟩
  rw [hnone] at hopen
  cases hopen

/-- A `moov` of open size with one track of AAC. -/
def openStream : List UInt8 := [0, 0, 0, 0, 0x6d, 0x6f, 0x6f, 0x76] ++ encodeAll [someMvex, someTrak]

/-- It is unknown as soon as its header has arrived, and AAC once all of it has. -/
theorem open_moov_cut :
    ¬ ∀ bytes : List UInt8, bytes.length ≤ maxInitSegmentBytes →
      ∀ start, start <+: bytes → readInitSegment start ≠ .incomplete →
        readInitSegment bytes = readInitSegment start := by
  intro h
  have hheader : readInitSegment (openStream.take 8) = .unknown := by decide
  have hall : readInitSegment openStream ≠ .unknown := by decide
  have hsame := h openStream (by decide) (openStream.take 8) (List.take_prefix ..)
    (by rw [hheader]; decide)
  exact hall (hsame.trans hheader)

end Ceres.Console.Mp4
