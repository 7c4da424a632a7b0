import WeavatrixMemory.Common
import WeavatrixMemory.Projection.Rebuild
import WeavatrixMemory.Snapshot.RoundTrip

namespace WeavatrixMemory.Snapshot.Resume

open Error Identity Domain Format Io Snapshot.Compact RoundTrip Outcome
open Projection.State Projection.Memory Projection.Admission Projection.Invariant Projection.Rebuild
open Projection.Replay

/-- Projections that no caller tells apart. -/
structure Agree (p q : MemoryProjection) : Prop where
  data : p.data = q.data
  view : ∀ clock, view p clock = view q clock
  incidents : ∀ id, ∃ facts, incidentFactIds p id = .ok facts ∧ incidentFactIds q id = .ok facts

/-- Valid projections with the same serialized fields, whatever way their indexes came about. -/
structure Alike (p q : MemoryProjection) : Prop where
  left : Valid p
  right : Valid q
  data : p.data = q.data

variable {p q : MemoryProjection}

theorem Alike.agree (h : Alike p q) : Agree p q := by
  have hdata := h.data
  simp only [MemoryProjection.data, ProjectionData.mk.injEq] at hdata
  obtain ⟨hnodes, hfacts, hsup, hret, -⟩ := hdata
  refine ⟨h.data, fun clock => ?_, fun id => ⟨_, h.left.incidentFactIds_eq id, ?_⟩⟩
  · have hactive : factIsActive p = factIsActive q := by
      funext fact clock
      simp only [factIsActive, hsup, hret]
    simp only [view, viewRef, hnodes, hfacts, hactive]
  · rw [h.right.incidentFactIds_eq id, hfacts]

theorem Alike.admitted (h : Alike p q) {metadata : EventMetadata} {payload : MemoryEvent} {change : Change}
    (ha : Admitted p metadata payload change) : Admitted q metadata payload change := by
  have hdata := h.data
  simp only [MemoryProjection.data, ProjectionData.mk.injEq] at hdata
  obtain ⟨hnodes, hfacts, hsup, -, -⟩ := hdata
  have hnode (id : EntityId) : p.nodeLookup.get id = q.nodeLookup.get id :=
    h.left.indexed.nodeLookup.unique (hnodes ▸ h.right.indexed.nodeLookup) id
  have hfact (id : FactId) : p.factLookup.get id = q.factLookup.get id :=
    h.left.indexed.factLookup.unique (hfacts ▸ h.right.indexed.factLookup) id
  cases ha with
  | revise hv hk hs => exact .revise hv (hnode _ ▸ hk) (hnodes ▸ hs)
  | add hv hu => exact .add hv (hnode _ ▸ hu)
  | record hr ha hs hf =>
      refine .record hr ha hs ⟨hf.valid, hnode _ ▸ hf.source, hnode _ ▸ hf.target, hfact _ ▸ hf.fresh, ?_⟩
      intro prior hp
      obtain ⟨hknown, hfree⟩ := hf.prior prior hp
      exact ⟨hfact prior ▸ hknown, hsup ▸ hfree⟩
  | retract hk hs hl hn he => exact .retract (hfact _ ▸ hk) (hfacts ▸ hs) hl hn he

theorem Alike.applied_data (h : Alike p q) (event : StoredEvent MemoryEvent) (change : Change) :
    (change.applied p event).data = (change.applied q event).data := by
  have hdata := h.data
  simp only [MemoryProjection.data, ProjectionData.mk.injEq] at hdata
  obtain ⟨hnodes, hfacts, hsup, hret, -⟩ := hdata
  cases change <;>
    simp only [Change.applied, Change.commit, MemoryProjection.data, hnodes, hfacts, hsup, hret]

theorem Alike.apply (h : Alike p q) {event : StoredEvent MemoryEvent} {p' : MemoryProjection}
    (hp : Projection.Memory.apply event p = .ok () p') :
    ∃ q', Projection.Memory.apply event q = .ok () q' ∧ Alike p' q' := by
  obtain ⟨change, ht, ha, rfl⟩ := apply_eq_ok.mp hp
  have haq := h.admitted ha
  exact ⟨_, apply_eq_ok.mpr ⟨change, ht, haq, rfl⟩, h.left.applied ha, h.right.applied haq,
    h.applied_data event change⟩

structure Bounded (n : Nat) (data : ProjectionData) : Prop where
  nodes : data.nodes.length ≤ n
  histories : ∀ history ∈ data.nodes, history.later.length ≤ n
  facts : data.facts.length ≤ n
  supersessions : data.supersessions.size ≤ n
  retractions : data.retractions.size ≤ n

theorem Bounded.mono {m n : Nat} {data : ProjectionData} (h : Bounded m data) (hn : m ≤ n) : Bounded n data where
  nodes := h.nodes.trans hn
  histories := fun history hh => (h.histories history hh).trans hn
  facts := h.facts.trans hn
  supersessions := h.supersessions.trans hn
  retractions := h.retractions.trans hn

theorem size_supersede_le (supersessions : BTreeMap FactId Supersession) (fact : MemoryFact) :
    (supersede supersessions fact).size ≤ supersessions.size + 1 := by
  unfold supersede
  cases fact.supersedes with
  | none => exact Nat.le_succ _
  | some prior => exact Std.ExtTreeMap.size_insert_le

variable {metadata : EventMetadata} {payload : MemoryEvent} {change : Change}

theorem Bounded.commit {n : Nat} (h : Bounded n p.data) (ha : Admitted p metadata payload change) :
    Bounded (n + 1) (change.commit p).data := by
  have hsucc := h.mono (Nat.le_succ n)
  cases ha with
  | @revise node index history hv hk hs =>
      refine { hsucc with nodes := ?_, histories := fun revised hr => ?_ }
      · exact (List.length_set).trans_le hsucc.nodes
      · rcases List.mem_or_eq_of_mem_set hr with hr | rfl
        · exact hsucc.histories revised hr
        · rw [List.length_append]
          exact Nat.succ_le_succ (h.histories history (List.mem_of_getElem? hs))
  | add hv hu =>
      refine { hsucc with nodes := ?_, histories := ?_ }
      · exact (List.length_append).trans_le (Nat.succ_le_succ h.nodes)
      · exact List.forall_mem_append.mpr ⟨hsucc.histories, List.forall_mem_singleton.mpr (Nat.zero_le _)⟩
  | @record fact source target hr hagent hsession hf =>
      refine { hsucc with facts := ?_, supersessions := ?_ }
      · exact (List.length_append).trans_le (Nat.succ_le_succ h.facts)
      · exact (size_supersede_le p.supersessions fact).trans (Nat.succ_le_succ h.supersessions)
  | retract hk hs hl hn he =>
      refine { hsucc with retractions := ?_ }
      exact Std.ExtTreeMap.size_insert_le.trans (Nat.succ_le_succ h.retractions)

theorem mem_facts_commit (ha : Admitted p metadata payload change) {fact : MemoryFact}
    (hf : fact ∈ (change.commit p).facts) : fact ∈ p.facts ∨ payload = .factRecorded fact := by
  cases ha with
  | revise hv hk hs => exact .inl hf
  | add hv hu => exact .inl hf
  | record hr hagent hsession ha =>
      rcases List.mem_append.mp hf with hf | hf
      · exact .inl hf
      · exact .inr (congrArg _ (List.mem_singleton.mp hf).symm)
  | retract hk hs hl hn he => exact .inl hf

structure Replayed (events : List (StoredEvent MemoryEvent)) (p : MemoryProjection) (cursor : ReplayCursor) :
    Prop where
  valid : Valid p
  bounded : Bounded events.length p.data
  recorded : ∀ fact ∈ p.facts, ∃ event ∈ events, event.payload = .factRecorded fact
  position : cursor.globalPosition = p.lastGlobalPosition
  streams : cursor.streamVersions.size ≤ events.length

theorem replayed_default (seeds : Seeds) : Replayed [] (.default seeds) .default where
  valid := valid_default seeds
  bounded := ⟨le_rfl, fun _ h => absurd h List.not_mem_nil, le_rfl, le_rfl, le_rfl⟩
  recorded := fun _ h => absurd h List.not_mem_nil
  position := rfl
  streams := le_rfl

theorem Replayed.step {before : List (StoredEvent MemoryEvent)} {cursor : ReplayCursor}
    (h : Replayed before p cursor) {event : StoredEvent MemoryEvent}
    (hq : Projection.Memory.apply event p = .ok () q) :
    Replayed (before ++ [event]) q (cursor.after event) := by
  obtain ⟨change, -, ha, rfl⟩ := apply_eq_ok.mp hq
  have hlen : (before ++ [event]).length = before.length + 1 := List.length_append
  refine ⟨h.valid.applied ha, ?_, fun fact hf => ?_, rfl, ?_⟩
  · rw [hlen]
    exact { h.bounded.commit ha with }
  · rcases mem_facts_commit ha hf with hf | hp
    · obtain ⟨e, he, hp⟩ := h.recorded fact hf
      exact ⟨e, List.mem_append_left _ he, hp⟩
    · exact ⟨event, List.mem_append_right _ List.mem_cons_self, hp⟩
  · rw [hlen]
    exact Std.ExtTreeMap.size_insert_le.trans (Nat.succ_le_succ h.streams)

theorem replayTracked_replayed {seeds : Seeds} {events : List (StoredEvent MemoryEvent)} {cursor : ReplayCursor}
    (h : replayTracked (memory seeds) events = .ok (p, cursor)) : Replayed events p cursor := by
  have hrun := @applyLoop_run _ _ _ true Replayed (fun _ _ _ _ _ h hq => h.step hq) events [] [] _ _ _ _
    (replayed_default seeds) h
  rwa [List.nil_append] at hrun

theorem Replayed.encodable {events : List (StoredEvent MemoryEvent)} {cursor : ReplayCursor}
    (h : Replayed events p cursor) (hlen : events.length < 2 ^ 63)
    (hconfident : ∀ event ∈ events, ∀ fact, event.payload = .factRecorded fact →
      fact.confidence.basisPoints ≤ 10000) : Encodable p.data where
  nodes := h.bounded.nodes.trans_lt hlen
  histories := fun history hh => (h.bounded.histories history hh).trans_lt hlen
  facts := h.bounded.facts.trans_lt hlen
  confident := by
    intro fact hf
    obtain ⟨event, he, hp⟩ := h.recorded fact hf
    exact hconfident event he fact hp
  supersessions := h.bounded.supersessions.trans_lt hlen
  retractions := h.bounded.retractions.trans_lt hlen

/-- What the encoder writes, the decoder reads back and indexes anew. -/
theorem decode_encode {s : ProjectionSnapshot MemoryProjection} (hdata : Encodable s.projection.data)
    (hstreams : s.cursor.streamVersions.size < 2 ^ 64)
    (hposition : s.cursor.globalPosition = s.projection.lastGlobalPosition) {seeds : Seeds}
    (hrebuilt : s.projection.data.deserialize seeds = .ok p) (hp : p.data = s.projection.data) :
    ∃ bytes, encode s = .ok bytes ∧ ∀ fits, decode seeds ⟨bytes, fits⟩ = .ok ⟨s.cursor, p⟩ := by
  obtain ⟨cursor, -, hwc, hrc⟩ := codes_cursor hstreams
  obtain ⟨projection, -, hwp, hrp⟩ := codes_projection hdata
  refine ⟨header ++ (cursor ++ projection), ?_, fun fits => ?_⟩
  · have hwrite := (hwc.bind hwp) header
    unfold encode
    rw [hwrite]
  · have hlen := fits
    simp only [List.length_append] at hlen
    have hheader : newReader (header ++ (cursor ++ projection)) =
        .ok ⟨header ++ (cursor ++ projection), header.length⟩ := by
      have hstart : header.isPrefixOf (header ++ (cursor ++ projection)) = true :=
        List.isPrefixOf_iff_prefix.mpr (List.prefix_append _ _)
      rw [newReader, hstart]
      rfl
    have hcursor := hrc header projection (by simp only [limit]; omega)
    have hprojection := hrp (header ++ cursor) [] (by simp only [limit, List.length_append, List.length_nil]; omega)
    rw [List.append_assoc] at hcursor
    rw [List.append_nil, List.append_assoc, List.length_append] at hprojection
    have hlast : p.lastGlobalPosition = s.projection.lastGlobalPosition :=
      congrArg ProjectionData.lastGlobalPosition hp
    have hend : decodeWith seeds ⟨header ++ (cursor ++ projection), header.length⟩ =
        .ok ⟨s.cursor, p⟩ ⟨header ++ (cursor ++ projection), header.length + cursor.length + projection.length⟩ := by
      unfold decodeWith readProjection
      rw [bind_of_ok hcursor, bind_assoc, bind_of_ok hprojection, hrebuilt, lift_apply _ _ rfl]
      unfold finishReader
      rw [bind_assoc, bind_apply, get_apply]
      simp only
      rw [lift_apply _ _ (throwIf_of_not (by simp only [List.length_append, ne_eq, not_not]; omega) _),
        lift_apply _ _ (throwIf_of_not (by rw [hlast, hposition, ne_eq, not_not]) _)]
      rfl
    unfold decode
    rw [hheader, ok_bind, hend]

theorem rebuilt (hp : Valid p) (hfacts : p.facts.length < 2 ^ 63) (seeds : Seeds) :
    ∃ q, p.data.deserialize seeds = .ok q ∧ Alike q p := by
  have hsmall : 2 * p.data.facts.length < 2 ^ 64 := by
    change 2 * p.facts.length < 2 ^ 64
    omega
  have hholds := (deserialize_holds seeds p.data).mono (fun _ h => h) fun e he => by
    rcases he with he | he
    · exact he.2 hsmall
    · exact he.2 hp.sound
  obtain ⟨q, hq, hdata, hvalid⟩ := hholds.exists_ok
  exact ⟨q, hq, hvalid, hp, hdata⟩

theorem Replayed.snapshot {events : List (StoredEvent MemoryEvent)} {cursor : ReplayCursor}
    (h : Replayed events p cursor) (hlen : events.length < 2 ^ 63)
    (hconfident : ∀ event ∈ events, ∀ fact, event.payload = .factRecorded fact →
      fact.confidence.basisPoints ≤ 10000) (seeds : Seeds) :
    ∃ bytes, encode ⟨cursor, p⟩ = .ok bytes ∧
      ∀ fits, ∃ q, decode seeds ⟨bytes, fits⟩ = .ok ⟨cursor, q⟩ ∧ Alike q p := by
  obtain ⟨q, hq, halike⟩ := rebuilt h.valid (h.bounded.facts.trans_lt hlen) seeds
  have hstreams : cursor.streamVersions.size < 2 ^ 64 := h.streams.trans_lt (hlen.trans (by decide))
  obtain ⟨bytes, hb, hd⟩ := @decode_encode _ ⟨cursor, p⟩ (h.encodable hlen hconfident) hstreams h.position seeds
    hq halike.data
  exact ⟨bytes, hb, fun fits => ⟨q, hd fits, halike⟩⟩

theorem Alike.resumed (h : Alike p q) {seeds : Seeds} {cursor cursor' : ReplayCursor}
    {tail : List (StoredEvent MemoryEvent)} {p' : MemoryProjection}
    (hp : resume (memory seeds) ⟨cursor, p⟩ tail = .ok (p', cursor')) :
    ∃ q', resume (memory seeds) ⟨cursor, q⟩ tail = .ok (q', cursor') ∧ Alike p' q' :=
  applyLoop_simulated (fun _ _ _ _ h hp => h.apply hp) h hp

theorem Alike.symm (h : Alike p q) : Alike q p := ⟨h.right, h.left, h.data.symm⟩

/-- Replaying a whole log is replaying its beginning and resuming with the rest, whose identifiers
must be new. -/
theorem replayTracked_append {seeds : Seeds} {before tail : List (StoredEvent MemoryEvent)}
    {cursor : ReplayCursor} :
    replayTracked (memory seeds) (before ++ tail) = .ok (p, cursor) ↔
      (∃ q middle, replayTracked (memory seeds) before = .ok (q, middle) ∧
        resume (memory seeds) ⟨middle, q⟩ tail = .ok (p, cursor)) ∧
      ∀ event ∈ tail, ∀ earlier ∈ before, event.metadata.id ≠ earlier.metadata.id := by
  have hfresh : (∀ event ∈ tail, event.metadata.id ∉ (before.map (·.metadata.id)).reverse) ↔
      ∀ event ∈ tail, ∀ earlier ∈ before, event.metadata.id ≠ earlier.metadata.id := by
    simp only [List.mem_reverse, List.mem_map, not_exists, not_and, ne_eq, eq_comm]
  rw [← hfresh]
  have hseen (q : MemoryProjection) (middle : ReplayCursor) :
      applyLoop (memory seeds).apply true tail ((before.map (·.metadata.id)).reverse ++ []) q middle = .ok (p, cursor) ↔
        resume (memory seeds) ⟨middle, q⟩ tail = .ok (p, cursor) ∧
          ∀ event ∈ tail, event.metadata.id ∉ (before.map (·.metadata.id)).reverse := by
    rw [List.append_nil, applyLoop_zero_start, ← List.nil_append (List.reverse _), applyLoop_seen]
    rfl
  refine applyLoop_append.trans ?_
  simp only [hseen]
  constructor
  · rintro ⟨q, middle, hq, hr, hn⟩
    exact ⟨⟨q, middle, hq, hr⟩, hn⟩
  · rintro ⟨⟨q, middle, hq, hr⟩, hn⟩
    exact ⟨q, middle, hq, hr, hn⟩

theorem replayTracked_seeds {seeds seeds' : Seeds} {events : List (StoredEvent MemoryEvent)}
    {cursor : ReplayCursor} (h : replayTracked (memory seeds) events = .ok (p, cursor)) :
    ∃ q, replayTracked (memory seeds') events = .ok (q, cursor) ∧ Alike p q := by
  have halike : Alike (.default seeds) (.default seeds') := ⟨valid_default _, valid_default _, rfl⟩
  exact applyLoop_simulated (fun _ _ _ _ h hp => h.apply hp) halike h

/-- Replaying a log, and resuming after any of its events from a snapshot that went through the
format, end alike. -/
theorem replay_iff_resume (whole first decoded : Seeds) (events : Vec (StoredEvent MemoryEvent))
    (before tail : List (StoredEvent MemoryEvent)) (hsplit : events.items = before ++ tail)
    (hconfident : ∀ event ∈ before, ∀ fact, event.payload = .factRecorded fact →
      fact.confidence.basisPoints ≤ 10000) :
    (∀ p cursor, replayTracked (memory whole) events.items = .ok (p, cursor) →
      ∃ s : ProjectionSnapshot MemoryProjection,
        replayTracked (memory first) before = .ok (s.projection, s.cursor) ∧
        ∃ bytes, encode s = .ok bytes ∧ ∀ fits, ∃ t, decode decoded ⟨bytes, fits⟩ = .ok t ∧
          t.cursor = s.cursor ∧ Agree t.projection s.projection ∧
          ∃ q, resume (memory decoded) t tail = .ok (q, cursor) ∧ Agree q p) ∧
    ∀ (s t : ProjectionSnapshot MemoryProjection) (bytes : Vec UInt8) q cursor,
      replayTracked (memory first) before = .ok (s.projection, s.cursor) →
      encode s = .ok bytes.items → decode decoded bytes = .ok t →
      resume (memory decoded) t tail = .ok (q, cursor) →
      (∀ event ∈ tail, ∀ earlier ∈ before, event.metadata.id ≠ earlier.metadata.id) →
      ∃ p, replayTracked (memory whole) events.items = .ok (p, cursor) ∧ Agree q p := by
  have hlen : before.length < 2 ^ 63 := by
    have hfits := events.fits
    rw [hsplit, List.length_append] at hfits
    omega
  rw [hsplit]
  constructor
  · intro p cursor h
    obtain ⟨⟨q, middle, hq, hr⟩, -⟩ := replayTracked_append.mp h
    obtain ⟨q', hq', halike⟩ := replayTracked_seeds hq
    obtain ⟨bytes, hb, hd⟩ := (replayTracked_replayed hq').snapshot hlen hconfident decoded
    refine ⟨⟨middle, q'⟩, hq', bytes, hb, fun fits => ?_⟩
    obtain ⟨t, ht, htq⟩ := hd fits
    have hqt : Alike q t := ⟨halike.left, htq.left, halike.data.trans htq.symm.data⟩
    obtain ⟨p', hp', hpp⟩ := hqt.resumed hr
    exact ⟨_, ht, rfl, htq.agree, p', hp', hpp.symm.agree⟩
  · rintro ⟨cursor₀, q₀⟩ t bytes q cursor hs hb hd hr hnew
    obtain ⟨bytes', hb', hd'⟩ := (replayTracked_replayed hs).snapshot hlen hconfident decoded
    obtain rfl : bytes' = bytes.items := Except.ok.inj (hb'.symm.trans hb)
    obtain ⟨t', ht', halike⟩ := hd' bytes.fits
    obtain rfl : ⟨cursor₀, t'⟩ = t := Except.ok.inj (ht'.symm.trans hd)
    obtain ⟨q₁, hq₁, halike₁⟩ := @replayTracked_seeds _ _ whole _ _ hs
    have htq : Alike t' q₁ := ⟨halike.left, halike₁.right, halike.data.trans halike₁.data⟩
    obtain ⟨p, hp, hqp⟩ := htq.resumed hr
    exact ⟨p, replayTracked_append.mpr ⟨⟨q₁, cursor₀, hq₁, hp⟩, hnew⟩, hqp.agree⟩

theorem replay_iff_resume_retracted_once :
    ∃ p cursor, replayTracked (memory ⟨1, 2⟩) Common.retractedOnce = .ok (p, cursor) ∧
      ∃ s : ProjectionSnapshot MemoryProjection,
        replayTracked (memory ⟨3, 4⟩) (Common.retractedOnce.take 3) = .ok (s.projection, s.cursor) ∧
        ∃ bytes, encode s = .ok bytes ∧ ∀ fits, ∃ t, decode ⟨5, 6⟩ ⟨bytes, fits⟩ = .ok t ∧
          t.cursor = s.cursor ∧ Agree t.projection s.projection ∧
          ∃ q, resume (memory ⟨5, 6⟩) t (Common.retractedOnce.drop 3) = .ok (q, cursor) ∧ Agree q p := by
  obtain ⟨⟨p, cursor⟩, h⟩ := exists_ok_of_isOk
    (show (replayTracked (memory ⟨1, 2⟩) Common.retractedOnce).isOk = true by decide +kernel)
  have hconfident : ∀ event ∈ Common.retractedOnce.take 3, ∀ fact, event.payload = .factRecorded fact →
      fact.confidence.basisPoints ≤ 10000 := by
    intro event he fact hp
    simp only [Common.retractedOnce, List.take_succ_cons, List.take_zero, List.mem_cons, List.not_mem_nil,
      or_false] at he
    rcases he with rfl | rfl | rfl
    · cases hp
    · cases hp
    · obtain rfl := MemoryEvent.factRecorded.inj hp
      decide
  exact ⟨p, cursor, h, (replay_iff_resume ⟨1, 2⟩ ⟨3, 4⟩ ⟨5, 6⟩ ⟨Common.retractedOnce, by decide⟩
    (Common.retractedOnce.take 3) (Common.retractedOnce.drop 3) rfl hconfident).1 p cursor h⟩

end WeavatrixMemory.Snapshot.Resume
