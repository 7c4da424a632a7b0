import WeavatrixMemory.Projection.Rebuild
import WeavatrixMemory.Snapshot.Compact

namespace WeavatrixMemory.Snapshot.Errors

open Error Identity Domain Outcome Format Io Snapshot.Compact
open Projection.State Projection.Replay Projection.Rebuild

variable {α β κ : Type}

abbrev Careful (read : Read α) : Prop := Steady limit (· = .panicked) read fun _ => True

theorem careful_pure (a : α) : Careful (pure a) := Steady.pure trivial

theorem careful_lift {x : Result α} (h : Safe x) : Careful (liftM x : Read α) := by
  cases x with
  | ok a => exact careful_pure a
  | error e => exact Steady.throw fun he => h (congrArg Except.error he)

theorem careful_readByte : Careful readByte := by
  intro c _
  rw [readByte, bind_apply, get_apply]
  dsimp only
  cases c.items[c.position]? with
  | none => rintro ⟨⟩
  | some byte => exact ⟨rfl, trivial⟩

theorem careful_readVarintFrom (rounds shift : Nat) (value : UInt64) : Careful (readVarintFrom rounds shift value) := by
  induction rounds generalizing shift value with
  | zero => exact Steady.throw (by rintro ⟨⟩)
  | succ rounds ih =>
      refine careful_readByte.field fun byte => (careful_lift (safe_throwIf (by rintro ⟨⟩))).field fun _ => ?_
      split
      · exact careful_pure _
      · exact ih _ _

theorem careful_readVarint : Careful readVarint := careful_readVarintFrom 10 0 0

theorem careful_readUsize : Careful readUsize := careful_readVarint.field fun _ => careful_pure _

theorem steady_readCount : Steady limit (· = .panicked) readCount (· < limit) := by
  refine careful_readUsize.field fun count c hc => ?_
  rw [bind_apply, get_apply]
  dsimp only
  by_cases h : remaining c < count
  · rw [throwIf, if_pos h]
    rintro ⟨⟩
  · rw [throwIf, if_neg h]
    exact ⟨rfl, ((not_lt.mp h).trans (Nat.sub_le _ _)).trans_lt hc⟩

theorem careful_readSigned : Careful readSigned := careful_readVarint.field fun _ => careful_pure _

theorem careful_readBool : Careful readBool := by
  refine careful_readByte.field fun byte => ?_
  split
  · exact careful_pure false
  · exact careful_pure true
  · exact Steady.throw (by rintro ⟨⟩)

theorem careful_readOptional {read : Read α} (h : Careful read) : Careful (readOptional read) := by
  refine careful_readBool.field fun present => ?_
  split
  · exact h.field fun _ => careful_pure _
  · exact careful_pure none

theorem safe_decodeUtf8 {bytes : List UInt8} (h : bytes.length < limit) : Safe (decodeUtf8 bytes) := by
  rw [decodeUtf8]
  split
  next str hstr =>
    have hfits : str.utf8ByteSize < 2 ^ 63 := by
      rw [String.fromUTF8?] at hstr
      split at hstr
      next => rwa [← Option.some.inj hstr]
      next => cases hstr
    rw [dif_pos hfits]
    exact safe_ok _
  next => exact safe_error (by rintro ⟨⟩)

theorem careful_readString : Careful readString := by
  refine careful_readUsize.field fun length c hc => ?_
  rw [bind_apply, get_apply]
  dsimp only
  rw [bind_apply, usizeChecked]
  split
  next hsum =>
    split at hsum
    next =>
      obtain ⟨rfl, rfl⟩ := EStateM.Result.ok.inj hsum
      split
      next hle =>
        have hshort : ((c.items.drop c.position).take length).length < limit := by
          rw [List.length_take, List.length_drop]
          omega
        rw [bind_apply, set_apply]
        exact careful_lift (safe_decodeUtf8 hshort) { c with position := c.position + length } hc
      next => rintro ⟨⟩
    next => cases hsum
  next e d hsum =>
    split at hsum
    next => cases hsum
    next =>
      obtain ⟨rfl, rfl⟩ := EStateM.Result.error.inj hsum
      rintro ⟨⟩

theorem safe_newId {kind : IdKind} (value : Text) : Safe (TextId.new value : Result (TextId kind)) := by
  rw [TextId.new]
  split
  · exact safe_ok _
  · exact safe_error (by rintro ⟨⟩)

theorem careful_readId (kind : IdKind) : Careful (readId kind) :=
  careful_readString.field fun value => careful_lift (safe_newId value)

theorem careful_readTimestamp : Careful readTimestamp := careful_readSigned.field fun _ => careful_pure _

theorem steady_readCounted {read : Read α} (h : Careful read) :
    Steady limit (· = .panicked) (readCounted read) (·.length < limit) :=
  steady_readCount.bind fun count hcount => (h.times count).mono fun _ hlength => hlength.trans_lt hcount

theorem steady_readEntries [Ord κ] [Std.TransOrd κ] [Std.LawfulEqOrd κ] {duplicate : String} {read : Read (κ × β)}
    (h : Careful read) (rounds : Nat) (entries : BTreeMap κ β) :
    Steady limit (· = .panicked) (readEntries duplicate read rounds entries) (·.size ≤ entries.size + rounds) := by
  induction rounds generalizing entries with
  | zero => exact Steady.pure le_rfl
  | succ rounds ih =>
      refine h.field fun entry => ?_
      obtain ⟨key, value⟩ := entry
      refine (careful_lift (safe_throwIf (by rintro ⟨⟩))).field fun _ => (ih _).mono fun found hfound => ?_
      have hsize := @Std.ExtTreeMap.size_insert_le _ _ _ entries _ key value
      omega

theorem steady_readMap [Ord κ] [Std.TransOrd κ] [Std.LawfulEqOrd κ] {duplicate : String} {read : Read (κ × β)}
    (h : Careful read) : Steady limit (· = .panicked) (readMap duplicate read) (·.size < limit) := by
  refine steady_readCount.bind fun count hcount => (steady_readEntries h count ∅).mono fun found hfound => ?_
  rw [Std.ExtTreeMap.size_empty, Nat.zero_add] at hfound
  exact hfound.trans_lt hcount

theorem careful_readNode : Careful readNode := by
  refine (careful_readId .entity).field fun id => careful_readString.field fun kind =>
    careful_readString.field fun label => ?_
  refine (careful_readOptional careful_readString).field fun repository => ?_
  refine (careful_readOptional careful_readString).field fun branch => ?_
  have hattribute : Careful readAttribute :=
    careful_readString.field fun _ => careful_readString.field fun _ => careful_pure _
  refine (steady_readMap hattribute).bind fun attributes hsize => ?_
  have hfits : attributes.size < 2 ^ 63 := hsize
  rw [dif_pos hfits]
  exact careful_pure _

theorem careful_readEvidences : Careful readEvidences := by
  have hevidence : Careful readEvidence :=
    careful_readString.field fun _ => careful_readString.field fun _ =>
      (careful_readOptional careful_readString).field fun _ =>
        (careful_readOptional careful_readString).field fun _ => careful_pure _
  refine (steady_readCounted hevidence).bind fun evidence hlength => ?_
  have hfits : evidence.length < 2 ^ 63 := hlength
  rw [collect, dif_pos hfits]
  exact careful_lift (safe_ok _)

theorem careful_readConfidence : Careful readConfidence := by
  refine careful_readVarint.field fun value =>
    (careful_lift (safe_throwIf (by rintro ⟨⟩))).field fun _ => careful_lift ?_
  rw [Confidence.fromBasisPoints]
  split
  · exact safe_error (by rintro ⟨⟩)
  · exact safe_ok _

theorem careful_readFact : Careful readFact := by
  refine (careful_readId .fact).field fun id => (careful_readId .entity).field fun source => ?_
  refine careful_readString.field fun relation => (careful_readId .entity).field fun target => ?_
  refine careful_readTimestamp.field fun validFrom =>
    (careful_readOptional careful_readSigned).field fun validUntil => ?_
  refine careful_readTimestamp.field fun observedAt => careful_readTimestamp.field fun recordedAt => ?_
  refine (careful_readId .agent).field fun agentId => (careful_readId .session).field fun sessionId => ?_
  refine careful_readConfidence.field fun confidence => careful_readEvidences.field fun evidence => ?_
  exact (careful_readOptional (careful_readId .fact)).field fun supersedes => careful_pure _

theorem careful_readCursor : Careful readCursor := by
  refine (careful_readOptional careful_readVarint).field fun position => ?_
  have hversion : Careful readStreamVersion :=
    (careful_readId .stream).field fun _ => careful_readVarint.field fun _ => careful_pure _
  exact (steady_readMap hversion).field fun _ => careful_pure _

theorem careful_readHistory : Careful readHistory := by
  have hrevision : Careful readRevision :=
    careful_readNode.field fun _ => careful_readTimestamp.field fun _ => careful_readVarint.field fun _ =>
      careful_pure _
  refine steady_readCount.field fun count => (careful_lift (safe_throwIf (by rintro ⟨⟩))).field fun _ => ?_
  exact hrevision.field fun first => (hrevision.times (count - 1)).field fun later => careful_pure _

theorem careful_readSupersession : Careful readSupersession :=
  (careful_readId .fact).field fun _ => (careful_readId .fact).field fun _ =>
    careful_readTimestamp.field fun _ => careful_readTimestamp.field fun _ => careful_pure _

theorem careful_readRetraction : Careful readRetraction :=
  (careful_readId .fact).field fun _ => careful_readTimestamp.field fun _ =>
    careful_readTimestamp.field fun _ => careful_pure _

theorem careful_readProjectionData : Careful readProjectionData := by
  refine (steady_readCounted careful_readHistory).field fun nodes => ?_
  refine (steady_readCounted careful_readFact).field fun facts => ?_
  refine (steady_readMap careful_readSupersession).field fun supersessions => ?_
  refine (steady_readMap careful_readRetraction).field fun retractions => ?_
  exact (careful_readOptional careful_readVarint).field fun position => careful_pure _

theorem safe_deserialize (seeds : Seeds) (data : ProjectionData) : Safe (data.deserialize seeds) := by
  intro h
  obtain hoverflow | hrejected := (deserialize_holds seeds data).of_error h
  · cases hoverflow.1
  · exact hrejected.1 rfl

theorem careful_decodeWith (seeds : Seeds) : Careful (decodeWith seeds) := by
  refine careful_readCursor.field fun cursor => ?_
  refine (careful_readProjectionData.field fun data => careful_lift (safe_deserialize seeds data)).field fun p => ?_
  refine Steady.field (fun c _ => ?_ : Careful finishReader) fun _ =>
    (careful_lift (safe_throwIf (by rintro ⟨⟩))).field fun _ => careful_pure _
  rw [finishReader, bind_apply, get_apply]
  dsimp only
  by_cases h : c.position ≠ c.items.length
  · rw [throwIf, if_pos h]
    rintro ⟨⟩
  · rw [throwIf, if_neg h]
    exact ⟨rfl, trivial⟩

/-- Whatever the bytes, the decoder returns. -/
theorem safe_decode (seeds : Seeds) (bytes : Vec UInt8) : Safe (decode seeds bytes) := by
  refine Safe.bind ((safe_throwIf (by rintro ⟨⟩)).bind fun _ _ => safe_ok _) fun reader hreader => ?_
  obtain ⟨_, -, hreader⟩ := bind_eq_ok.mp hreader
  obtain rfl := Except.ok.inj hreader
  have hends := careful_decodeWith seeds ⟨bytes.items, header.length⟩ bytes.fits
  cases h : decodeWith seeds ⟨bytes.items, header.length⟩ with
  | ok snapshot c => exact safe_ok snapshot
  | error e c => exact safe_error (hends.of_error h)

end WeavatrixMemory.Snapshot.Errors
