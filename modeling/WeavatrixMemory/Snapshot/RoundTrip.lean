import WeavatrixMemory.Snapshot.Compact

namespace WeavatrixMemory.Snapshot.RoundTrip

open Error Identity Domain Format Io Snapshot.Compact Projection.State Projection.Replay

variable {α β κ : Type}

theorem codes_counted_list {write : α → Write} {read : Read α} {xs : List α} (hn : xs.length < 2 ^ 64)
    (h : ∀ a ∈ xs, Codes limit 1 (write a) read a) :
    Codes limit 1 (writeCounted write xs) (readCounted read) xs :=
  codes_counted hn (Codes.each xs h) le_rfl

variable [Ord κ] [Std.TransOrd κ] [Std.LawfulEqOrd κ]

def insertEach (entries : List (κ × β)) (m : BTreeMap κ β) : BTreeMap κ β :=
  entries.foldl (fun m e => m.insert e.1 e.2) m

theorem getElem?_insertEach {entries : List (κ × β)} (h : (entries.map (·.1)).Nodup) (m : BTreeMap κ β)
    {k : κ} {v : β} :
    (insertEach entries m)[k]? = some v ↔
      (k, v) ∈ entries ∨ k ∉ entries.map (·.1) ∧ m[k]? = some v := by
  induction entries generalizing m with
  | nil => simp [insertEach]
  | cons e entries ih =>
      rcases e with ⟨key, value⟩
      obtain ⟨hkey, hnodup⟩ := List.nodup_cons.mp h
      rw [insertEach, List.foldl_cons, ← insertEach, ih hnodup, List.map_cons, List.mem_cons, List.mem_cons,
        not_or, Std.ExtTreeMap.getElem?_insert, Prod.mk.injEq]
      by_cases hk : k = key
      · subst hk
        have hno : (k, v) ∉ entries := fun hm => hkey (List.mem_map.mpr ⟨(k, v), hm, rfl⟩)
        simp [hkey, hno, eq_comm]
      · have hc : compare key k ≠ .eq := fun hc => hk (Std.LawfulEqOrd.eq_of_compare hc).symm
        simp [hk, hc]

theorem insertEach_toList (m : BTreeMap κ β) : insertEach m.toList ∅ = m := by
  apply Std.ExtTreeMap.ext_getElem?
  intro k
  apply Option.ext
  intro v
  rw [getElem?_insertEach (nodup_keys m), Std.ExtTreeMap.mem_toList_iff_getElem?_eq_some]
  simp

theorem codes_entries {duplicate : String} {write : κ × β → Write} {read : Read (κ × β)}
    (entries : List (κ × β)) (h : ∀ e ∈ entries, Codes limit 1 (write e) read e) (m : BTreeMap κ β)
    (hnodup : (entries.map (·.1)).Nodup) (hm : ∀ e ∈ entries, e.1 ∉ m) :
    Codes limit entries.length (writeEach write entries) (readEntries duplicate read entries.length m)
      (insertEach entries m) := by
  induction entries generalizing m with
  | nil => exact Codes.pure limit m
  | cons e entries ih =>
      obtain ⟨he, hentries⟩ := List.forall_mem_cons.mp h
      obtain ⟨hnew, hnodup⟩ := List.nodup_cons.mp hnodup
      obtain ⟨hme, hmentries⟩ := List.forall_mem_cons.mp hm
      have hrest := ih hentries (m.insert e.1 e.2) hnodup (by
        intro e' he' hin
        rw [Std.ExtTreeMap.mem_insert] at hin
        rcases hin with hc | hin
        · exact hnew (List.mem_map.mpr ⟨e', he', (Std.LawfulEqOrd.eq_of_compare hc).symm⟩)
        · exact hmentries e' he' hin)
      have hcodes : Codes limit (1 + entries.length) (writeEach write (e :: entries))
          (readEntries duplicate read (entries.length + 1) m) (insertEach (e :: entries) m) := by
        refine he.bind ?_
        have hthrow : throwIf (m.contains e.1) (codec duplicate) = .ok () :=
          throwIf_of_not (by simpa using hme) _
        simp only [hthrow]
        exact hrest
      exact hcodes.mono (Nat.add_comm entries.length 1).le

theorem codes_map {duplicate : String} {write : κ × β → Write} {read : Read (κ × β)} {m : BTreeMap κ β}
    (hsize : m.size < 2 ^ 64) (h : ∀ e ∈ m.toList, Codes limit 1 (write e) read e) :
    Codes limit 1 (writeCounted write m.toList) (readMap duplicate read) m := by
  have hentries := @codes_entries _ _ _ _ _ duplicate _ _ m.toList h ∅ (nodup_keys m) (by simp)
  rw [insertEach_toList] at hentries
  exact codes_counted (by rwa [Std.ExtTreeMap.length_toList]) hentries le_rfl

theorem codes_id {kind : IdKind} (id : TextId kind) : Codes limit 1 (writeId id) (readId kind) id :=
  (codes_string id.text).finish fun c => by
    rw [TextId.new_text]
    rfl

theorem codes_timestamp (t : Timestamp) : Codes limit 1 (writeTimestamp t) readTimestamp t :=
  (codes_signed t.micros).finish fun _ => rfl

theorem codes_attribute (entry : Text × Text) : Codes limit 1 (writeAttribute entry) readAttribute entry := by
  refine (codes_string entry.1).field ?_
  exact (codes_string entry.2).finish fun _ => rfl

theorem codes_node (node : MemoryNode) : Codes limit 1 (writeNode node) readNode node := by
  refine (codes_id node.id).field ((codes_string _).field ((codes_string _).field
    ((codes_optionalString _).field ((codes_optionalString _).field ?_))))
  have hsize : node.attributes.size < 2 ^ 64 := node.attributesFit.trans (by decide)
  refine (codes_map hsize fun e _ => codes_attribute e).finish fun c => ?_
  simp only [dif_pos node.attributesFit]
  rfl

theorem codes_evidence (evidence : Evidence) : Codes limit 1 (writeEvidence evidence) readEvidence evidence := by
  refine (codes_string _).field ((codes_string _).field ((codes_optionalString _).field ?_))
  exact (codes_optionalString _).finish fun _ => rfl

theorem codes_evidences (evidence : Vec Evidence) :
    Codes limit 1 (writeCounted writeEvidence evidence.items) readEvidences evidence := by
  have hlength : evidence.items.length < 2 ^ 64 := evidence.fits.trans (by decide)
  refine (codes_counted_list hlength fun e _ => codes_evidence e).finish fun c => ?_
  simp only [collect, dif_pos evidence.fits]
  rfl

theorem codes_confidence {confidence : Confidence} (h : confidence.basisPoints ≤ 10000) :
    Codes limit 1 (writeConfidence confidence) readConfidence confidence := by
  have hback : confidence.basisPoints.toUInt64.toUInt16 = confidence.basisPoints := by simp
  have hlt : ¬ 2 ^ 16 ≤ confidence.basisPoints.toUInt64.toNat := by
    rw [UInt16.toNat_toUInt64, Nat.not_le]
    exact UInt16.toNat_lt _
  have hmake : Confidence.fromBasisPoints confidence.basisPoints = .ok confidence :=
    if_neg (UInt16.not_lt.mpr h)
  refine (codes_varint _).finish fun c => ?_
  rw [lift_apply _ _ (throwIf_of_not hlt _), hback, hmake]
  rfl

theorem codes_fact {fact : MemoryFact} (h : fact.confidence.basisPoints ≤ 10000) :
    Codes limit 1 (writeFact fact) readFact fact := by
  refine (codes_id fact.id).field ((codes_id fact.source).field ((codes_string _).field
    ((codes_id fact.target).field ((codes_timestamp _).field ((codes_optional fun v _ => codes_signed v).field
      ((codes_timestamp _).field ((codes_timestamp _).field ((codes_id fact.agentId).field
        ((codes_id fact.sessionId).field ((codes_confidence h).field
          ((codes_evidences fact.evidence).field ?_)))))))))))
  refine (codes_optional fun id _ => codes_id id).finish fun c => ?_
  have huntil : (fact.validUntil.map (·.micros)).map Timestamp.mk = fact.validUntil := by
    cases fact.validUntil <;> rfl
  simp only [huntil]
  rfl

theorem codes_streamVersion (entry : StreamId × UInt64) :
    Codes limit 1 (writeStreamVersion entry) readStreamVersion entry := by
  refine (codes_id entry.1).field ?_
  exact (codes_varint entry.2).finish fun _ => rfl

theorem codes_cursor {cursor : ReplayCursor} (h : cursor.streamVersions.size < 2 ^ 64) :
    Codes limit 1 (writeCursor cursor) readCursor cursor := by
  refine (codes_optional fun v _ => codes_varint v).field ?_
  exact (codes_map h fun e _ => codes_streamVersion e).finish fun _ => rfl

theorem codes_revision (revision : NodeRevision) : Codes limit 1 (writeRevision revision) readRevision revision := by
  refine (codes_node _).field ((codes_timestamp _).field ?_)
  exact (codes_varint _).finish fun _ => rfl

theorem codes_history {history : NodeHistory} (h : history.later.length + 1 < 2 ^ 64) :
    Codes limit 1 (writeHistory history) readHistory history := by
  refine @codes_counted _ _ (history.later.length + 1) _ _ _ h ?_ le_rfl
  have hthrow : throwIf (history.later.length + 1 = 0) (codec "node revision history must not be empty") =
      .ok () := throwIf_of_not (Nat.succ_ne_zero _) _
  simp only [hthrow, Nat.add_sub_cancel]
  refine ((codes_revision history.first).bind ?_).mono (Nat.add_comm _ 1).le
  exact (Codes.each history.later fun r _ => codes_revision r).finish fun _ => rfl

theorem codes_supersession (entry : FactId × Supersession) :
    Codes limit 1 (writeSupersession entry) readSupersession entry := by
  refine (codes_id entry.1).field ((codes_id entry.2.replacement).field ((codes_timestamp _).field ?_))
  exact (codes_timestamp _).finish fun _ => rfl

theorem codes_retraction (entry : FactId × Retraction) :
    Codes limit 1 (writeRetraction entry) readRetraction entry := by
  refine (codes_id entry.1).field ((codes_timestamp _).field ?_)
  exact (codes_timestamp _).finish fun _ => rfl

/-- What the format can hold: counts that fit a word, and confidences that the decoder accepts. -/
structure Encodable (data : ProjectionData) : Prop where
  nodes : data.nodes.length < 2 ^ 63
  histories : ∀ history ∈ data.nodes, history.later.length < 2 ^ 63
  facts : data.facts.length < 2 ^ 63
  confident : ∀ fact ∈ data.facts, fact.confidence.basisPoints ≤ 10000
  supersessions : data.supersessions.size < 2 ^ 63
  retractions : data.retractions.size < 2 ^ 63

theorem codes_projection {p : MemoryProjection} (h : Encodable p.data) :
    Codes limit 1 (writeProjection p) readProjectionData p.data := by
  have word : ∀ {n : Nat}, n < 2 ^ 63 → n < 2 ^ 64 := fun hn => hn.trans (by decide)
  refine (codes_counted_list (word h.nodes) fun history hh => codes_history ?_).field ?_
  · have := h.histories history hh
    omega
  refine (codes_counted_list (word h.facts) fun fact hf => codes_fact (h.confident fact hf)).field ?_
  refine (codes_map (word h.supersessions) fun e _ => codes_supersession e).field ?_
  refine (codes_map (word h.retractions) fun e _ => codes_retraction e).field ?_
  exact (codes_optional fun v _ => codes_varint v).finish fun _ => rfl

theorem decode_parts {seeds : Seeds} {bytes : Vec UInt8} {s : ProjectionSnapshot MemoryProjection}
    (h : decode seeds bytes = .ok s) : ∃ reader middle last data, newReader bytes.items = .ok reader ∧
      readCursor reader = .ok s.cursor middle ∧ readProjectionData middle = .ok data last ∧
      data.deserialize seeds = .ok s.projection ∧ last.position = last.items.length ∧
      s.cursor.globalPosition = s.projection.lastGlobalPosition := by
  obtain ⟨reader, hreader, h⟩ := bind_eq_ok.mp h
  cases hwith : decodeWith seeds reader with
  | error e t =>
      rw [hwith] at h
      cases h
  | ok snapshot t =>
      rw [hwith] at h
      obtain rfl := Except.ok.inj h
      simp only [decodeWith, readProjection, finishReader, bind_assoc, bind_apply_eq_ok, lift_apply_eq_ok,
        throwIf_eq_ok, ne_eq, not_not] at hwith
      obtain ⟨cursor, middle, hcursor, data, last, hdata, p, _, ⟨hp, rfl⟩, hrest⟩ := hwith
      obtain ⟨reached, _, hget, _, _, ⟨hend, -⟩, _, _, ⟨hposition, -⟩, hsnapshot⟩ := hrest
      obtain ⟨rfl, -⟩ := EStateM.Result.ok.inj hget
      obtain ⟨rfl, -⟩ := EStateM.Result.ok.inj hsnapshot
      exact ⟨reader, middle, _, data, hreader, hcursor, hdata, hp, hend, hposition⟩

end WeavatrixMemory.Snapshot.RoundTrip
