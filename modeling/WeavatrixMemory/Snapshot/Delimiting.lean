import WeavatrixMemory.Snapshot.Errors
import WeavatrixMemory.Snapshot.Resume

namespace WeavatrixMemory.Snapshot.Delimiting

open Error Identity Domain Format Io Snapshot.Compact RoundTrip Resume
open Projection.State Projection.Replay

variable {α β κ : Type}

theorem local_lift (x : Result α) : Local (liftM x : Read α) := by
  cases x with
  | ok a => exact Local.pure a
  | error e => exact Local.throw e

theorem local_check {x : Result α} {next : α → Read β} (h : ∀ a, Local (next a)) :
    Local ((liftM x : Read α) >>= next) := (local_lift x).bind h

theorem local_readByte : Local readByte := by
  intro items rest position byte c h
  unfold readByte at h ⊢
  rw [bind_apply, get_apply] at h ⊢
  dsimp only at h ⊢
  cases hget : items[position]? with
  | none =>
      rw [hget] at h
      cases h
  | some found =>
      have hlt := (List.getElem?_eq_some_iff.mp hget).1
      rw [hget] at h
      rw [List.getElem?_append_left hlt, hget]
      obtain ⟨rfl, rfl⟩ := EStateM.Result.ok.inj h
      exact ⟨rfl, rfl⟩

theorem local_readVarintFrom (rounds shift : Nat) (value : UInt64) : Local (readVarintFrom rounds shift value) := by
  induction rounds generalizing shift value with
  | zero => exact Local.throw _
  | succ rounds ih =>
      refine local_readByte.bind fun byte => local_check fun _ => ?_
      exact Local.ite (Local.pure _) (ih _ _)

theorem local_readVarint : Local readVarint := local_readVarintFrom 10 0 0

theorem local_readUsize : Local readUsize := local_readVarint.bind fun _ => Local.pure _

theorem local_readCount : Local readCount := by
  intro items rest position count c h
  rw [readCount] at h
  obtain ⟨n, ⟨middle, reached⟩, hn, hcounted⟩ := ok_of_bind h
  obtain ⟨hsame, hread⟩ := local_readUsize items rest position n _ hn
  obtain rfl : middle = items := hsame
  rw [bind_apply, get_apply] at hcounted
  dsimp only at hcounted
  obtain ⟨_, _, hcheck, hcounted⟩ := ok_of_bind hcounted
  obtain ⟨hpassed, rfl⟩ := lift_apply_eq_ok.mp hcheck
  obtain ⟨rfl, rfl⟩ := EStateM.Result.ok.inj hcounted
  refine ⟨rfl, ?_⟩
  have hmore : ¬ remaining ⟨middle ++ rest, reached⟩ < n := by
    have henough := throwIf_eq_ok.mp hpassed
    simp only [remaining, List.length_append] at henough ⊢
    omega
  unfold readCount
  rw [bind_of_ok hread, bind_apply, get_apply]
  dsimp only
  rw [lift_apply _ _ (throwIf_of_not hmore _)]
  rfl

theorem local_readSigned : Local readSigned := local_readVarint.bind fun _ => Local.pure _

theorem local_readBool : Local readBool := by
  refine local_readByte.bind fun byte => ?_
  split
  · exact Local.pure false
  · exact Local.pure true
  · exact Local.throw _

theorem local_readOptional {read : Read α} (h : Local read) : Local (readOptional read) := by
  refine local_readBool.bind fun present => ?_
  exact Local.ite (h.bind fun _ => Local.pure _) (Local.pure none)

theorem local_readString : Local readString := by
  intro items rest position text c h
  rw [readString] at h
  obtain ⟨length, ⟨middle, reached⟩, hlength, hslice⟩ := ok_of_bind h
  obtain ⟨hsame, hread⟩ := local_readUsize items rest position length _ hlength
  obtain rfl : middle = items := hsame
  rw [bind_apply, get_apply] at hslice
  dsimp only at hslice
  obtain ⟨end_, _, hend, hslice⟩ := ok_of_bind hslice
  obtain ⟨hchecked, rfl⟩ := lift_apply_eq_ok.mp hend
  obtain rfl : reached + length = end_ := by
    rw [usizeChecked] at hchecked
    split at hchecked
    · exact Except.ok.inj hchecked
    · cases hchecked
  split at hslice
  next hle =>
    rw [bind_apply, set_apply] at hslice
    obtain ⟨hdecode, rfl⟩ := lift_apply_eq_ok.mp hslice
    refine ⟨rfl, ?_⟩
    have hmore : reached + length ≤ (middle ++ rest).length := by
      rw [List.length_append]
      omega
    have hbytes : ((middle ++ rest).drop reached).take length = (middle.drop reached).take length := by
      rw [List.drop_append_of_le_length (by omega), List.take_append_of_le_length]
      rw [List.length_drop]
      omega
    unfold readString
    rw [bind_of_ok hread, bind_apply, get_apply]
    dsimp only
    rw [lift_apply _ _ hchecked, if_pos hmore, bind_apply, set_apply]
    dsimp only
    rw [hbytes]
    exact lift_apply_eq_ok.mpr ⟨hdecode, rfl⟩
  next => cases hslice

theorem local_readId (kind : IdKind) : Local (readId kind) := local_readString.bind fun _ => local_lift _

theorem local_readTimestamp : Local readTimestamp := local_readSigned.bind fun _ => Local.pure _

theorem local_readCounted {read : Read α} (h : Local read) : Local (readCounted read) :=
  local_readCount.bind fun count => h.times count

theorem local_readEntries [Ord κ] [Std.TransOrd κ] {duplicate : String} {read : Read (κ × β)} (h : Local read)
    (rounds : Nat) (entries : BTreeMap κ β) : Local (readEntries duplicate read rounds entries) := by
  induction rounds generalizing entries with
  | zero => exact Local.pure entries
  | succ rounds ih => exact h.bind fun entry => local_check fun _ => ih _

theorem local_readMap [Ord κ] [Std.TransOrd κ] {duplicate : String} {read : Read (κ × β)} (h : Local read) :
    Local (readMap duplicate read) := local_readCount.bind fun count => local_readEntries h count ∅

theorem local_readAttribute : Local readAttribute :=
  local_readString.bind fun _ => local_readString.bind fun _ => Local.pure _

theorem local_readNode : Local readNode := by
  refine (local_readId .entity).bind fun id => local_readString.bind fun kind => local_readString.bind fun label => ?_
  refine (local_readOptional local_readString).bind fun repository => ?_
  refine (local_readOptional local_readString).bind fun branch =>
    (local_readMap local_readAttribute).bind fun attributes => ?_
  split
  next => exact Local.pure _
  next => exact Local.throw _

theorem local_readEvidence : Local readEvidence := by
  refine local_readString.bind fun kind => local_readString.bind fun source => ?_
  exact (local_readOptional local_readString).bind fun locator =>
    (local_readOptional local_readString).bind fun digest =>
    Local.pure _

theorem local_readFact : Local readFact := by
  refine (local_readId .fact).bind fun id => (local_readId .entity).bind fun source =>
    local_readString.bind fun relation => ?_
  refine (local_readId .entity).bind fun target => local_readTimestamp.bind fun validFrom => ?_
  refine (local_readOptional local_readSigned).bind fun validUntil => local_readTimestamp.bind fun observedAt => ?_
  refine local_readTimestamp.bind fun recordedAt => (local_readId .agent).bind fun agentId => ?_
  refine (local_readId .session).bind fun sessionId => ?_
  refine (local_readVarint.bind fun _ => local_check fun _ => local_lift _).bind fun confidence => ?_
  refine ((local_readCounted local_readEvidence).bind fun _ => local_lift _).bind fun evidence => ?_
  exact (local_readOptional (local_readId .fact)).bind fun supersedes => Local.pure _

theorem local_readRevision : Local readRevision :=
  local_readNode.bind fun _ => local_readTimestamp.bind fun _ => local_readVarint.bind fun _ => Local.pure _

theorem local_readHistory : Local readHistory :=
  local_readCount.bind fun count => local_check fun _ => local_readRevision.bind fun _ =>
    (local_readRevision.times (count - 1)).bind fun _ => Local.pure _

theorem local_readSupersession : Local readSupersession :=
  (local_readId .fact).bind fun _ => (local_readId .fact).bind fun _ => local_readTimestamp.bind fun _ =>
    local_readTimestamp.bind fun _ => Local.pure _

theorem local_readRetraction : Local readRetraction :=
  (local_readId .fact).bind fun _ => local_readTimestamp.bind fun _ => local_readTimestamp.bind fun _ => Local.pure _

theorem local_readProjectionData : Local readProjectionData := by
  refine (local_readCounted local_readHistory).bind fun nodes => (local_readCounted local_readFact).bind fun facts => ?_
  refine (local_readMap local_readSupersession).bind fun supersessions => ?_
  refine (local_readMap local_readRetraction).bind fun retractions => ?_
  exact (local_readOptional local_readVarint).bind fun position => Local.pure _

theorem local_readCursor : Local readCursor := by
  refine (local_readOptional local_readVarint).bind fun position => ?_
  exact (local_readMap ((local_readId .stream).bind fun _ => local_readVarint.bind fun _ => Local.pure _)).bind fun _ =>
    Local.pure _

theorem lt_of_writeUsize {n : Nat} {start out : List UInt8} (h : writeUsize n start = .ok () out) : n < 2 ^ 64 := by
  by_contra hn
  rw [writeUsize, u64TryFrom, if_neg hn] at h
  cases h

theorem tells_of_fits {n : Nat} {write : Write} {read : Read β} {b : β}
    (h : n < 2 ^ 64 → Tells limit (writeUsize n >>= fun _ => write) read b) :
    Tells limit (writeUsize n >>= fun _ => write) read b := by
  intro start out hout
  obtain ⟨⟨⟩, middle, hmiddle, -⟩ := ok_of_bind hout
  exact h (lt_of_writeUsize hmiddle) start out hout

theorem tells_count (n : Nat) : Tells limit (writeUsize n) readCount n := by
  intro start out hout
  have hn := lt_of_writeUsize hout
  refine ((codes_usize hn).tells.finish fun c x c' hx => ?_) start out hout
  rw [bind_apply, get_apply] at hx
  dsimp only at hx
  obtain ⟨_, _, hcheck, hx⟩ := ok_of_bind hx
  obtain ⟨-, rfl⟩ := lift_apply_eq_ok.mp hcheck
  obtain ⟨rfl, rfl⟩ := EStateM.Result.ok.inj hx
  exact ⟨rfl, rfl⟩

theorem tells_counted {write : α → Write} {read : Read α} {xs : List α} (h : ∀ a ∈ xs, Tells limit (write a) read a) :
    Tells limit (writeCounted write xs) (readCounted read) xs := (tells_count _).bind (Tells.each xs h)

theorem tells_map [Ord κ] [Std.TransOrd κ] [Std.LawfulEqOrd κ] {duplicate : String} {write : κ × β → Write}
    {read : Read (κ × β)} {m : BTreeMap κ β} (h : ∀ e ∈ m.toList, Codes limit 1 (write e) read e) :
    Tells limit (writeCounted write m.toList) (readMap duplicate read) m := by
  refine tells_of_fits fun hsize => ?_
  rw [Std.ExtTreeMap.length_toList] at hsize
  exact (codes_map hsize h).tells

/-- A confidence beyond the greatest one is written, but not read back. -/
theorem tells_confidence (confidence : Confidence) :
    Tells limit (writeConfidence confidence) readConfidence confidence := by
  have hback : confidence.basisPoints.toUInt64.toUInt16 = confidence.basisPoints := by simp
  refine (codes_varint _).tells.finish fun c x c' hx => ?_
  obtain ⟨_, _, hcheck, hx⟩ := ok_of_bind hx
  obtain ⟨-, rfl⟩ := lift_apply_eq_ok.mp hcheck
  obtain ⟨hmake, rfl⟩ := lift_apply_eq_ok.mp hx
  rw [hback, Confidence.fromBasisPoints] at hmake
  split at hmake
  next => cases hmake
  next => exact ⟨(Except.ok.inj hmake).symm, rfl⟩

theorem tells_fact (fact : MemoryFact) : Tells limit (writeFact fact) readFact fact := by
  refine (codes_id fact.id).tells.bind ((codes_id fact.source).tells.bind ((codes_string _).tells.bind
    ((codes_id fact.target).tells.bind
      ((codes_timestamp _).tells.bind ((codes_optional fun v _ => codes_signed v).tells.bind
      ((codes_timestamp _).tells.bind ((codes_timestamp _).tells.bind ((codes_id fact.agentId).tells.bind
        ((codes_id fact.sessionId).tells.bind ((tells_confidence _).bind
          ((codes_evidences fact.evidence).tells.bind ?_)))))))))))
  refine (codes_optional fun id _ => codes_id id).tells.finish fun c x c' hx => ?_
  obtain ⟨rfl, rfl⟩ := EStateM.Result.ok.inj hx
  have huntil : (fact.validUntil.map (·.micros)).map Timestamp.mk = fact.validUntil := by
    cases fact.validUntil <;> rfl
  simp only [huntil, and_true]

theorem tells_history (history : NodeHistory) : Tells limit (writeHistory history) readHistory history :=
  tells_of_fits fun hcount => (codes_history hcount).tells

theorem tells_projection (p : MemoryProjection) : Tells limit (writeProjection p) readProjectionData p.data := by
  refine (tells_counted fun history _ => tells_history history).bind ((tells_counted fun fact _ => tells_fact fact).bind
    ((tells_map fun e _ => codes_supersession e).bind ((tells_map fun e _ => codes_retraction e).bind ?_)))
  refine (codes_optional fun v _ => codes_varint v).tells.finish fun c x c' hx => ?_
  obtain ⟨rfl, rfl⟩ := EStateM.Result.ok.inj hx
  exact ⟨rfl, rfl⟩

theorem tells_cursor (cursor : ReplayCursor) : Tells limit (writeCursor cursor) readCursor cursor := by
  refine (codes_optional fun v _ => codes_varint v).tells.bind ?_
  refine (tells_map fun e _ => codes_streamVersion e).finish fun c x c' hx => ?_
  obtain ⟨rfl, rfl⟩ := EStateM.Result.ok.inj hx
  exact ⟨rfl, rfl⟩

def writeSnapshot (s : ProjectionSnapshot MemoryProjection) : Write := do
  writeCursor s.cursor
  writeProjection s.projection

/-- What the decoder reads before it builds the indexes. -/
def readSnapshot : Read (ReplayCursor × ProjectionData) := do
  let cursor ← readCursor
  let data ← readProjectionData
  pure (cursor, data)

def contents (s : ProjectionSnapshot MemoryProjection) : ReplayCursor × ProjectionData := (s.cursor, s.projection.data)

theorem local_readSnapshot : Local readSnapshot :=
  local_readCursor.bind fun _ => local_readProjectionData.bind fun _ => Local.pure _

theorem tells_snapshot (s : ProjectionSnapshot MemoryProjection) :
    Tells limit (writeSnapshot s) readSnapshot (contents s) := by
  refine (tells_cursor s.cursor).bind ((tells_projection s.projection).finish fun c x c' hx => ?_)
  obtain ⟨rfl, rfl⟩ := EStateM.Result.ok.inj hx
  exact ⟨rfl, rfl⟩

theorem encode_eq_ok {s : ProjectionSnapshot MemoryProjection} {bytes : List UInt8} :
    encode s = .ok bytes ↔ writeSnapshot s header = .ok () bytes := by
  have hwrite : (do writeCursor s.cursor; writeProjection s.projection : Write) header = writeSnapshot s header := rfl
  rw [encode, hwrite]
  cases writeSnapshot s header <;> simp

theorem codes_snapshot {s : ProjectionSnapshot MemoryProjection} (hdata : Encodable s.projection.data)
    (hstreams : s.cursor.streamVersions.size < 2 ^ 64) :
    Codes limit 1 (writeSnapshot s) readSnapshot (contents s) :=
  (codes_cursor hstreams).field ((codes_projection hdata).finish fun _ => rfl)

theorem readSnapshot_of_decode {seeds : Seeds} {bytes : Vec UInt8} {t : ProjectionSnapshot MemoryProjection}
    (h : decode seeds bytes = .ok t) : header <+: bytes.items ∧ ∃ found,
      readSnapshot ⟨bytes.items, header.length⟩ = .ok found ⟨bytes.items, bytes.items.length⟩ := by
  obtain ⟨reader, middle, last, data, hreader, hcursor, hdata, -, hend, -⟩ := decode_parts h
  obtain ⟨⟨⟩, hheader, hreader⟩ := bind_eq_ok.mp hreader
  obtain rfl := Except.ok.inj hreader
  have hstart : header <+: bytes.items := by
    have hstarts := throwIf_eq_ok.mp hheader
    rw [Bool.not_eq_true', Bool.not_eq_false] at hstarts
    exact List.isPrefixOf_iff_prefix.mp hstarts
  have hread : readSnapshot ⟨bytes.items, header.length⟩ = .ok (t.cursor, data) last := by
    rw [readSnapshot, bind_of_ok hcursor, bind_of_ok hdata]
    rfl
  have hitems := (local_readSnapshot _ [] _ _ _ hread).1
  rw [hitems] at hend
  refine ⟨hstart, (t.cursor, data), hread.trans ?_⟩
  rw [← hend, ← hitems]

/-- Bytes that are the encoding of a snapshot, with no other ones before or behind them. -/
structure Delimited (decoded : Seeds) (s : ProjectionSnapshot MemoryProjection) (bytes : Vec UInt8) : Prop where
  decodes : ∃ t, decode decoded bytes = .ok t ∧ t.cursor = s.cursor ∧ Agree t.projection s.projection
  shorter : ∀ part : Vec UInt8, part.items <+: bytes.items → part.items ≠ bytes.items →
    ∃ e, e ≠ .panicked ∧ decode decoded part = .error e
  longer : ∀ more : Vec UInt8, bytes.items <+: more.items → more.items ≠ bytes.items →
    ∃ e, e ≠ .panicked ∧ decode decoded more = .error e
  only : ∀ (t : ProjectionSnapshot MemoryProjection) (other : Vec UInt8), encode t = .ok other.items →
    other.items <+: bytes.items ∨ bytes.items <+: other.items →
    t.cursor = s.cursor ∧ t.projection.data = s.projection.data

/-- The encoding of a snapshot tells where it ends. -/
theorem encode_delimited {seeds : Seeds} {events : Vec (StoredEvent MemoryEvent)}
    {s : ProjectionSnapshot MemoryProjection}
    (hs : replayTracked (memory seeds) events.items = .ok (s.projection, s.cursor))
    (hconfident : ∀ fact ∈ s.projection.facts, fact.confidence.basisPoints ≤ 10000) (decoded : Seeds) :
    (∃ bytes, encode s = .ok bytes) ∧ ∀ bytes : Vec UInt8, encode s = .ok bytes.items → Delimited decoded s bytes := by
  have hreplayed := replayTracked_replayed hs
  have hstreams : s.cursor.streamVersions.size < 2 ^ 64 := hreplayed.streams.trans_lt (events.fits.trans (by decide))
  have hdata : Encodable s.projection.data :=
    { nodes := hreplayed.bounded.nodes.trans_lt events.fits
      histories := fun history hh => (hreplayed.bounded.histories history hh).trans_lt events.fits
      facts := hreplayed.bounded.facts.trans_lt events.fits
      confident := hconfident
      supersessions := hreplayed.bounded.supersessions.trans_lt events.fits
      retractions := hreplayed.bounded.retractions.trans_lt events.fits }
  obtain ⟨p, hp, halike⟩ := rebuilt hreplayed.valid (hreplayed.bounded.facts.trans_lt events.fits) decoded
  obtain ⟨found, hfound, hdecode⟩ := decode_encode hdata hstreams hreplayed.position hp halike.data
  obtain ⟨enc, -, hwrites, hreads⟩ := codes_snapshot hdata hstreams
  refine ⟨⟨found, hfound⟩, fun bytes hbytes => ?_⟩
  obtain rfl : found = bytes.items := Except.ok.inj (hfound.symm.trans hbytes)
  have hitems : bytes.items = header ++ enc := by
    obtain ⟨-, hout⟩ := EStateM.Result.ok.inj ((encode_eq_ok.mp hbytes).symm.trans (hwrites header))
    exact hout
  -- whatever follows it, the encoding is read to its end
  have hread {longer : Vec UInt8} (h : bytes.items <+: longer.items) : readSnapshot ⟨longer.items, header.length⟩ =
      .ok (contents s) ⟨longer.items, bytes.items.length⟩ := by
    obtain ⟨rest, hrest⟩ := h
    have hfits := longer.fits
    rw [← hrest, hitems, List.length_append, List.length_append] at hfits
    have hroom := hreads header rest hfits
    rw [← hitems, hrest, ← List.length_append, ← hitems] at hroom
    exact hroom
  have hrefused {other : Vec UInt8} (h : ∀ t, decode decoded other ≠ .ok t) :
      ∃ e, e ≠ .panicked ∧ decode decoded other = .error e := by
    cases hother : decode decoded other with
    | ok t => exact absurd hother (h t)
    | error e =>
        refine ⟨e, ?_, rfl⟩
        rintro rfl
        exact Errors.safe_decode decoded other hother
  refine ⟨⟨_, hdecode bytes.fits, rfl, halike.agree⟩, fun part hpart hne => hrefused fun t ht => ?_,
    fun longer hlonger hne => hrefused fun t ht => ?_, fun t other hother hcomparable => ?_⟩
  · obtain ⟨-, found, hfound⟩ := readSnapshot_of_decode ht
    obtain ⟨rest, hrest⟩ := hpart
    obtain ⟨-, hmore⟩ := local_readSnapshot _ rest _ _ _ hfound
    rw [hrest] at hmore
    obtain ⟨-, hend⟩ := EStateM.Result.ok.inj (hmore.symm.trans (hread (List.prefix_refl _)))
    exact hne (List.IsPrefix.eq_of_length ⟨rest, hrest⟩ (congrArg Cursor.position hend))
  · obtain ⟨-, found, hfound⟩ := readSnapshot_of_decode ht
    obtain ⟨-, hend⟩ := EStateM.Result.ok.inj (hfound.symm.trans (hread hlonger))
    exact hne (hlonger.eq_of_length (congrArg Cursor.position hend).symm).symm
  · obtain ⟨enc', hout, htells⟩ := tells_snapshot t header other.items (encode_eq_ok.mp hother)
    obtain ⟨longer, hother, hlonger⟩ :
        ∃ longer : Vec UInt8, other.items <+: longer.items ∧ bytes.items <+: longer.items := by
      obtain h | h := hcomparable
      · exact ⟨bytes, h, List.prefix_refl _⟩
      · exact ⟨other, List.prefix_refl _, h⟩
    have hfound := hread hlonger
    obtain ⟨rest, hrest⟩ := hother
    have hfits := longer.fits
    rw [← hrest, hout, List.length_append, List.length_append] at hfits
    rw [← hrest, hout] at hfound
    obtain ⟨hsame, -⟩ := htells header rest _ _ hfits hfound
    obtain ⟨hcursor, hprojection⟩ := Prod.mk.inj hsame
    exact ⟨hcursor.symm, hprojection.symm⟩

theorem encode_delimited_retracted_once : ∃ s : ProjectionSnapshot MemoryProjection,
    replayTracked (memory ⟨1, 2⟩) Common.retractedOnce = .ok (s.projection, s.cursor) ∧
      (∃ bytes, encode s = .ok bytes) ∧
      ∀ bytes : Vec UInt8, encode s = .ok bytes.items → Delimited ⟨3, 4⟩ s bytes := by
  have hconfident : (replayTracked (memory ⟨1, 2⟩) Common.retractedOnce).map
      (fun r => decide (∀ fact ∈ r.1.facts, fact.confidence.basisPoints ≤ 10000)) = .ok true := by decide +kernel
  obtain ⟨⟨p, cursor⟩, hs, hp⟩ := map_eq_ok.mp hconfident
  exact ⟨⟨cursor, p⟩, hs,
    @encode_delimited _ ⟨Common.retractedOnce, by decide⟩ ⟨cursor, p⟩ hs (of_decide_eq_true hp) ⟨3, 4⟩⟩

end WeavatrixMemory.Snapshot.Delimiting
