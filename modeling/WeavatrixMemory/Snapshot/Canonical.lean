import WeavatrixMemory.Snapshot.Delimiting
import WeavatrixMemory.Snapshot.Stores

namespace WeavatrixMemory.Snapshot.Canonical

open Error Identity Domain Format Words Io Snapshot.Compact RoundTrip
open Projection Projection.State Projection.Memory Projection.Replay Generations Stores

variable {α β κ : Type} {bound : Nat}

/-- A reader whose values can be written again, in no more bytes than they were read from. -/
abbrev Rewrites (bound : Nat) (read : Read α) (write : α → Write) (good : α → Prop) : Prop :=
  Covers bound read fun a enc => good a ∧ Writes (write a) enc

def any {α : Type} (_ : α) : Prop := True

theorem covers_lift (x : Result α) : Covers bound (liftM x : Read α) fun a enc => x = .ok a ∧ enc = [] := by
  cases x with
  | ok a => exact Covers.pure ⟨rfl, rfl⟩
  | error e => exact Covers.throw e

theorem covers_check {x : Result α} {next : α → Read β} {spec : β → List UInt8 → Prop}
    (h : ∀ a, x = .ok a → Covers bound (next a) spec) : Covers bound ((liftM x : Read α) >>= next) spec := by
  refine (covers_lift x).bind fun a enc ha => ?_
  rw [ha.2]
  exact h a ha.1

theorem covers_readByte : Covers bound readByte fun byte enc => enc = [byte] := by
  intro c byte c' hc hr
  rw [readByte, bind_apply, get_apply] at hr
  dsimp only at hr
  cases hbyte : c.items[c.position]? with
  | none =>
      rw [hbyte] at hr
      cases hr
  | some b =>
      rw [hbyte] at hr
      obtain ⟨rfl, rfl⟩ := EStateM.Result.ok.inj hr
      exact ⟨rfl, [b], rfl, le_rfl⟩

theorem readVarintFrom_lt (rounds : Nat) {shift : Nat} {acc : UInt64} (hrounds : 7 * rounds + shift = 70)
    (hacc : acc.toNat < 2 ^ shift) :
    Covers bound (readVarintFrom rounds shift acc) fun v enc => v.toNat < 2 ^ (shift + 7 * enc.length) ∧ enc ≠ [] := by
  induction rounds generalizing shift acc with
  | zero => exact Covers.throw _
  | succ rounds ih =>
      rw [readVarintFrom]
      refine covers_readByte.bind fun byte enc hbyte => covers_check fun _ hfits => ?_
      subst hbyte
      have hlow : (byte &&& 0x7f).toNat < 2 ^ 7 := by
        rw [toNat_low_seven]
        exact Nat.mod_lt _ (by decide)
      have hnext : (acc ||| ((byte &&& 0x7f).toUInt64 <<< UInt64.ofNat shift)).toNat < 2 ^ (shift + 7) := by
        by_cases hlast : shift = 63
        · exact (UInt64.toNat_lt _).trans (by rw [hlast]; decide)
        · have hshift : shift + 7 ≤ 63 := by omega
          have hroom : (byte &&& 0x7f).toNat * 2 ^ shift < 2 ^ (shift + 7) := by
            rw [Nat.pow_add, Nat.mul_comm]
            exact (Nat.mul_lt_mul_left (Nat.two_pow_pos shift)).mpr hlow
          have hword : 2 ^ (shift + 7) ≤ 2 ^ 63 := Nat.pow_le_pow_right (by decide) hshift
          rw [toNat_or_shiftLeft hacc (by omega) (hroom.trans_le (hword.trans (by decide)))]
          have hacc : acc.toNat + 1 ≤ 2 ^ shift := hacc
          have hlow : ((byte &&& 0x7f).toNat + 1) * 2 ^ shift ≤ 2 ^ 7 * 2 ^ shift := Nat.mul_le_mul_right _ hlow
          rw [Nat.add_mul, Nat.one_mul, Nat.mul_comm (2 ^ 7), ← Nat.pow_add] at hlow
          omega
      split
      next => exact Covers.pure ⟨by simpa using hnext, by simp⟩
      next =>
        refine (ih (by omega) hnext).mono fun v enc hv => ⟨?_, by simp⟩
        rw [List.length_append, List.length_singleton, Nat.mul_add, ← Nat.add_assoc]
        exact hv.1

theorem writes_varintFrom (rounds : Nat) {v : UInt64} {size : Nat} (hpos : 0 < size) (hv : v.toNat < 2 ^ (7 * size)) :
    ∃ enc, enc.length ≤ size ∧ enc ≠ [] ∧ Writes (writeVarintFrom rounds v) enc := by
  induction rounds generalizing v size with
  | zero => exact ⟨[v.toUInt8], hpos, by simp, writes_writeBytes _⟩
  | succ rounds ih =>
      rw [writeVarintFrom]
      split
      next hlarge =>
        have hlarge : 2 ^ 7 ≤ v.toNat := UInt64.le_iff_toNat_le.mp hlarge
        have hmore : 1 < size := by
          by_contra hno
          obtain rfl : size = 1 := by omega
          omega
        have hrest : (v >>> 7).toNat < 2 ^ (7 * (size - 1)) := by
          rw [UInt64.toNat_shiftRight]
          refine (Nat.shiftRight_eq_div_pow v.toNat 7).trans_lt ?_
          rw [Nat.div_lt_iff_lt_mul (by decide), ← Nat.pow_add, show 7 * (size - 1) + 7 = 7 * size by omega]
          exact hv
        obtain ⟨enc, hle, -, hw⟩ := ih (by omega) hrest
        refine ⟨[v.toUInt8 &&& 0x7f ||| 0x80] ++ enc, ?_, by simp, (writes_writeBytes _).bind hw⟩
        rw [List.length_append, List.length_singleton]
        omega
      next => exact ⟨[v.toUInt8], hpos, by simp, writes_writeBytes _⟩

theorem rewrites_varint : Rewrites bound readVarint writeVarint any := by
  refine (readVarintFrom_lt 10 rfl (by decide)).shorten fun v enc hv => ?_
  obtain ⟨hv, hne⟩ := hv
  rw [Nat.zero_add] at hv
  obtain ⟨enc', hle, -, hw⟩ := writes_varintFrom 9 (List.length_pos_iff.mpr hne) hv
  exact ⟨enc', hle, trivial, hw⟩

theorem Rewrites.map {read : Read α} {write : α → Write} {write' : β → Write} {good : α → Prop} {good' : β → Prop}
    {f : α → β} (h : Rewrites bound read write good) (hwrite : ∀ a, write' (f a) = write a)
    (hgood : ∀ a, good a → good' (f a)) : Rewrites bound (read >>= fun a => pure (f a)) write' good' := by
  refine h.bind fun a enc ha => Covers.pure ⟨hgood a ha.1, ?_⟩
  rw [List.append_nil, hwrite]
  exact ha.2

theorem rewrites_usize : Rewrites bound readUsize writeUsize any := by
  refine rewrites_varint.map (fun v => ?_) fun _ _ => trivial
  have hfits : u64TryFrom v.toNat = .ok v := by
    rw [u64TryFrom, if_pos (UInt64.toNat_lt v), UInt64.ofNat_toNat]
  rw [writeUsize, hfits]
  rfl

theorem rewrites_signed : Rewrites bound readSigned writeSigned any := by
  refine rewrites_varint.map (fun v => congrArg writeVarint ?_) fun _ _ => trivial
  apply UInt64.toBitVec_inj.mp
  simpa using zigzag_surjective v.toBitVec

theorem rewrites_bool : Rewrites bound readBool writeBool any := by
  refine covers_readByte.bind fun byte enc hbyte => ?_
  subst hbyte
  split
  next => exact Covers.pure ⟨trivial, writes_writeBytes _⟩
  next => exact Covers.pure ⟨trivial, writes_writeBytes _⟩
  next => exact Covers.throw _

theorem rewrites_optional {read : Read α} {write : α → Write} {good : α → Prop} (h : Rewrites bound read write good) :
    Rewrites bound (readOptional read) (writeOptional write) any := by
  refine rewrites_bool.bind fun present enc hpresent => ?_
  cases present with
  | false =>
      refine Covers.pure ⟨trivial, ?_⟩
      rw [List.append_nil]
      exact hpresent.2
  | true =>
      refine h.bind fun a enc' ha => Covers.pure ⟨trivial, ?_⟩
      rw [List.append_nil]
      exact hpresent.2.bind ha.2

theorem rewrites_string : Rewrites bound readString writeString any := by
  refine rewrites_usize.bind fun length enc hlength => ?_
  intro c t c' hc hr
  rw [bind_apply, get_apply] at hr
  dsimp only at hr
  obtain ⟨end_, d, hend, hr⟩ := ok_of_bind hr
  have hreached : end_ = c.position + length ∧ d = c := by
    rw [usizeChecked] at hend
    split at hend
    next =>
      obtain ⟨rfl, rfl⟩ := EStateM.Result.ok.inj hend
      exact ⟨rfl, rfl⟩
    next => cases hend
  obtain ⟨rfl, rfl⟩ := hreached
  split at hr
  next hle =>
    rw [bind_apply, set_apply] at hr
    dsimp only at hr
    have hdecode : decodeUtf8 ((d.items.drop d.position).take length) = .ok t ∧
        c' = { d with position := d.position + length } := by
      cases hd : decodeUtf8 ((d.items.drop d.position).take length) with
      | error e =>
          rw [hd] at hr
          cases hr
      | ok other =>
          rw [hd] at hr
          obtain ⟨rfl, rfl⟩ := EStateM.Result.ok.inj hr
          exact ⟨rfl, rfl⟩
    obtain ⟨hdecode, rfl⟩ := hdecode
    have hbytes := decodeUtf8_eq_ok hdecode
    have hlong : t.bytes.length = length := by
      rw [hbytes, List.length_take, List.length_drop]
      omega
    refine ⟨rfl, t.bytes, ⟨trivial, ?_⟩, by rw [hlong]⟩
    rw [writeString, ← length_bytes, hlong]
    exact hlength.2.bind (writes_writeBytes _)
  next => cases hr

theorem rewrites_optionalString : Rewrites bound readOptionalString writeOptionalString any :=
  rewrites_optional rewrites_string

theorem covers_readCount : Covers bound readCount fun count enc => count ≤ bound ∧ Writes (writeUsize count) enc := by
  refine rewrites_usize.bind fun count enc hcount => ?_
  intro c n c' hc hr
  rw [bind_apply, get_apply] at hr
  dsimp only at hr
  obtain ⟨_, d, hcheck, hr⟩ := ok_of_bind hr
  obtain ⟨rfl, rfl⟩ := EStateM.Result.ok.inj hr
  rw [throwIf] at hcheck
  split at hcheck
  next => cases hcheck
  next hroom =>
    obtain ⟨-, rfl⟩ := EStateM.Result.ok.inj hcheck
    rw [remaining] at hroom
    refine ⟨rfl, [], ⟨by omega, ?_⟩, le_rfl⟩
    rw [List.append_nil]
    exact hcount.2

theorem rewrites_counted {read : Read α} {write : α → Write} {good : α → Prop} (h : Rewrites bound read write good) :
    Rewrites bound (readCounted read) (writeCounted write) fun xs => xs.length ≤ bound ∧ ∀ a ∈ xs, good a := by
  refine covers_readCount.bind fun count enc hcount => (Covers.times h count).mono fun xs enc' hxs => ?_
  obtain ⟨rfl, hgood, hw⟩ := hxs
  exact ⟨⟨hcount.1, hgood⟩, hcount.2.bind hw⟩

section Maps

variable [Ord κ] [Std.TransOrd κ]

theorem covers_entries {duplicate : String} {read : Read (κ × β)} {write : κ × β → Write}
    (h : Rewrites bound read write any) (rounds : Nat) (m : BTreeMap κ β) :
    Covers bound (readEntries duplicate read rounds m) fun final enc => ∃ entries : List (κ × β),
      entries.length = rounds ∧ (entries.map (·.1)).Nodup ∧ (∀ e ∈ entries, e.1 ∉ m) ∧
        final = insertEach entries m ∧ (∀ e ∈ entries, ∃ enc, Writes (write e) enc) ∧
          Writes (writeEach write entries) enc := by
  induction rounds generalizing m with
  | zero => exact Covers.pure ⟨[], rfl, List.nodup_nil, by simp, rfl, by simp, writes_nil⟩
  | succ rounds ih =>
      refine h.bind fun e enc he => covers_check fun _ hnew => (ih (m.insert e.1 e.2)).mono fun final enc' hfinal => ?_
      obtain ⟨entries, rfl, hnodup, hfresh, rfl, hwrites, hw⟩ := hfinal
      have hnew : e.1 ∉ m := by simpa using throwIf_eq_ok.mp hnew
      refine ⟨e :: entries, rfl, ?_, ?_, rfl, List.forall_mem_cons.mpr ⟨⟨enc, he.2⟩, hwrites⟩, he.2.bind hw⟩
      · refine List.nodup_cons.mpr ⟨fun hmem => ?_, hnodup⟩
        obtain ⟨other, hother, hkey⟩ := List.mem_map.mp hmem
        refine hfresh other hother ?_
        rw [hkey]
        exact Std.ExtTreeMap.mem_insert_self
      · refine List.forall_mem_cons.mpr ⟨hnew, fun other hother hin => hfresh other hother ?_⟩
        exact Std.ExtTreeMap.mem_insert.mpr (.inr hin)

variable [Std.LawfulEqOrd κ]

theorem toList_insertEach {entries : List (κ × β)} (h : (entries.map (·.1)).Nodup) :
    (insertEach entries ∅).toList.Perm entries := by
  refine (List.perm_ext_iff_of_nodup (List.Nodup.of_map _ (nodup_keys _)) (List.Nodup.of_map _ h)).mpr fun e => ?_
  rw [Std.ExtTreeMap.mem_toList_iff_getElem?_eq_some, getElem?_insertEach h]
  simp

theorem rewrites_map {duplicate : String} {read : Read (κ × β)} {write : κ × β → Write}
    (h : Rewrites bound read write any) :
    Rewrites bound (readMap duplicate read) (fun m => writeCounted write m.toList) fun m => m.size ≤ bound := by
  refine covers_readCount.bind fun count enc hcount => (covers_entries h count ∅).shorten fun m enc' hm => ?_
  obtain ⟨entries, rfl, hnodup, -, rfl, hwrites, hw⟩ := hm
  have hperm := toList_insertEach hnodup
  obtain ⟨enc'', hlength, hw'⟩ := writes_each_perm hperm.symm hwrites hw
  have hsize : (insertEach entries ∅).toList.length = entries.length := hperm.length_eq
  refine ⟨enc'', hlength.le, ?_, ?_⟩
  · have hcounted : (insertEach entries ∅).size = entries.length := by rw [← Std.ExtTreeMap.length_toList, hsize]
    exact hcounted.trans_le hcount.1
  · change Writes (writeCounted write (insertEach entries ∅).toList) _
    rw [writeCounted, hsize]
    exact hcount.2.bind hw'

end Maps

theorem writes_last {write : Write} {enc : List UInt8} (h : Writes write enc) : Writes write (enc ++ []) := by
  rwa [List.append_nil]

theorem rewrites_id (kind : IdKind) : Rewrites bound (readId kind) writeId any := by
  refine rewrites_string.bind fun value enc hvalue => (covers_lift (TextId.new value)).mono fun id enc' hid => ?_
  obtain ⟨hid, rfl⟩ := hid
  obtain rfl : value = id.text := (TextId.text_of_new hid).symm
  exact ⟨trivial, writes_last hvalue.2⟩

theorem rewrites_timestamp : Rewrites bound readTimestamp writeTimestamp any :=
  rewrites_signed.map (fun _ => rfl) fun _ _ => trivial

theorem rewrites_attribute : Rewrites bound readAttribute writeAttribute any :=
  rewrites_string.bind fun _ _ hkey => rewrites_string.bind fun _ _ hvalue =>
    Covers.pure ⟨trivial, hkey.2.bind (writes_last hvalue.2)⟩

theorem rewrites_node : Rewrites bound readNode writeNode any := by
  refine (rewrites_id .entity).bind fun id _ hid => rewrites_string.bind fun kind _ hkind =>
    rewrites_string.bind fun label _ hlabel => rewrites_optionalString.bind fun repository _ hrepository =>
    rewrites_optionalString.bind fun branch _ hbranch =>
      (rewrites_map rewrites_attribute).bind fun attributes _ hattributes => ?_
  split
  next => exact Covers.pure ⟨trivial, hid.2.bind (hkind.2.bind (hlabel.2.bind (hrepository.2.bind (hbranch.2.bind
      (writes_last hattributes.2)))))⟩
  next => exact Covers.throw _

theorem rewrites_evidence : Rewrites bound readEvidence writeEvidence any :=
  rewrites_string.bind fun _ _ hkind => rewrites_string.bind fun _ _ hsource =>
    rewrites_optionalString.bind fun _ _ hlocator => rewrites_optionalString.bind fun _ _ hdigest =>
    Covers.pure ⟨trivial, hkind.2.bind (hsource.2.bind (hlocator.2.bind (writes_last hdigest.2)))⟩

theorem rewrites_evidences :
    Rewrites bound readEvidences (fun evidence => writeCounted writeEvidence evidence.items) any := by
  refine (rewrites_counted rewrites_evidence).bind fun items enc hitems =>
    (covers_lift (collect items)).mono fun evidence enc' hevidence => ?_
  obtain ⟨hevidence, rfl⟩ := hevidence
  rw [collect] at hevidence
  split at hevidence
  next =>
    obtain rfl := Except.ok.inj hevidence
    exact ⟨trivial, writes_last hitems.2⟩
  next => cases hevidence

theorem rewrites_confidence : Rewrites bound readConfidence writeConfidence fun confidence =>
    confidence.basisPoints ≤ 10000 := by
  refine rewrites_varint.bind fun value enc hvalue => covers_check fun _ hsmall =>
    (covers_lift (Confidence.fromBasisPoints value.toUInt16)).mono fun confidence enc' hconfidence => ?_
  obtain ⟨hconfidence, rfl⟩ := hconfidence
  rw [Confidence.fromBasisPoints] at hconfidence
  split at hconfidence
  next => cases hconfidence
  next hle =>
    obtain rfl := Except.ok.inj hconfidence
    have hback : value.toUInt16.toUInt64 = value := by
      apply UInt64.toNat_inj.mp
      rw [UInt16.toNat_toUInt64, UInt64.toNat_toUInt16]
      exact Nat.mod_eq_of_lt (Nat.lt_of_not_le (throwIf_eq_ok.mp hsmall))
    refine ⟨UInt16.not_lt.mp hle, writes_last ?_⟩
    rw [writeConfidence, hback]
    exact hvalue.2

theorem rewrites_fact : Rewrites bound readFact writeFact fun fact => fact.confidence.basisPoints ≤ 10000 :=
  (rewrites_id .fact).bind fun _ _ hid => (rewrites_id .entity).bind fun _ _ hsource =>
    rewrites_string.bind fun _ _ hrelation => (rewrites_id .entity).bind fun _ _ htarget =>
    rewrites_timestamp.bind fun _ _ hfrom => (rewrites_optional rewrites_signed).bind fun until_ _ huntil =>
    rewrites_timestamp.bind fun _ _ hobserved => rewrites_timestamp.bind fun _ _ hrecorded =>
    (rewrites_id .agent).bind fun _ _ hagent => (rewrites_id .session).bind fun _ _ hsession =>
    rewrites_confidence.bind fun _ _ hconfidence => rewrites_evidences.bind fun _ _ hevidence =>
    (rewrites_optional (rewrites_id .fact)).bind fun _ _ hsupersedes => Covers.pure ⟨hconfidence.1, by
      have huntil' : (until_.map Timestamp.mk).map (·.micros) = until_ := by
        rw [Option.map_map]
        exact Option.map_id'
      refine hid.2.bind (hsource.2.bind (hrelation.2.bind (htarget.2.bind (hfrom.2.bind (.bind ?_ (hobserved.2.bind
        (hrecorded.2.bind (hagent.2.bind (hsession.2.bind (hconfidence.2.bind (hevidence.2.bind
          (writes_last hsupersedes.2))))))))))))
      change Writes (writeOptionalSigned ((until_.map Timestamp.mk).map (·.micros))) _
      rw [huntil']
      exact huntil.2⟩

theorem rewrites_streamVersion : Rewrites bound readStreamVersion writeStreamVersion any :=
  (rewrites_id .stream).bind fun _ _ hstream => rewrites_varint.bind fun _ _ hversion =>
    Covers.pure ⟨trivial, hstream.2.bind (writes_last hversion.2)⟩

theorem rewrites_cursor : Rewrites bound readCursor writeCursor fun cursor => cursor.streamVersions.size ≤ bound :=
  (rewrites_optional rewrites_varint).bind fun _ _ hposition =>
    (rewrites_map rewrites_streamVersion).bind fun _ _ hversions =>
    Covers.pure ⟨hversions.1, hposition.2.bind (writes_last hversions.2)⟩

theorem rewrites_revision : Rewrites bound readRevision writeRevision any :=
  rewrites_node.bind fun _ _ hnode => rewrites_timestamp.bind fun _ _ hrecorded =>
    rewrites_varint.bind fun _ _ hposition =>
    Covers.pure ⟨trivial, hnode.2.bind (hrecorded.2.bind (writes_last hposition.2))⟩

theorem rewrites_history : Rewrites bound readHistory writeHistory fun history => history.later.length ≤ bound := by
  refine covers_readCount.bind fun count enc hcount => covers_check fun _ hsome => rewrites_revision.bind
    fun first _ hfirst => (Covers.times rewrites_revision (count - 1)).bind fun later _ hlater => Covers.pure ⟨?_, ?_⟩
  · exact hlater.1.trans_le ((Nat.sub_le count 1).trans hcount.1)
  · have hone : later.length + 1 = count := by
      have hpos := Nat.pos_of_ne_zero (throwIf_eq_ok.mp hsome)
      rw [hlater.1]
      omega
    rw [writeHistory, hone]
    exact hcount.2.bind (hfirst.2.bind (writes_last hlater.2.2))

theorem rewrites_supersession : Rewrites bound readSupersession writeSupersession any :=
  (rewrites_id .fact).bind fun _ _ hprior => (rewrites_id .fact).bind fun _ _ hreplacement =>
    rewrites_timestamp.bind fun _ _ hfrom => rewrites_timestamp.bind fun _ _ hrecorded =>
    Covers.pure ⟨trivial, hprior.2.bind (hreplacement.2.bind (hfrom.2.bind (writes_last hrecorded.2)))⟩

theorem rewrites_retraction : Rewrites bound readRetraction writeRetraction any :=
  (rewrites_id .fact).bind fun _ _ hfact => rewrites_timestamp.bind fun _ _ huntil =>
    rewrites_timestamp.bind fun _ _ hrecorded =>
    Covers.pure ⟨trivial, hfact.2.bind (huntil.2.bind (writes_last hrecorded.2))⟩

def writeData (data : ProjectionData) : Write := do
  writeCounted writeHistory data.nodes
  writeCounted writeFact data.facts
  writeCounted writeSupersession data.supersessions.toList
  writeCounted writeRetraction data.retractions.toList
  writeOptionalU64 data.lastGlobalPosition

structure Small (bound : Nat) (data : ProjectionData) : Prop where
  nodes : data.nodes.length ≤ bound ∧ ∀ history ∈ data.nodes, history.later.length ≤ bound
  facts : data.facts.length ≤ bound ∧ ∀ fact ∈ data.facts, fact.confidence.basisPoints ≤ 10000
  supersessions : data.supersessions.size ≤ bound
  retractions : data.retractions.size ≤ bound

theorem rewrites_data : Rewrites bound readProjectionData writeData (Small bound) :=
  (rewrites_counted rewrites_history).bind fun _ _ hnodes => (rewrites_counted rewrites_fact).bind fun _ _ hfacts =>
    (rewrites_map rewrites_supersession).bind fun _ _ hsupersessions =>
    (rewrites_map rewrites_retraction).bind fun _ _ hretractions =>
      (rewrites_optional rewrites_varint).bind fun _ _ hlast =>
    Covers.pure ⟨⟨hnodes.1, hfacts.1, hsupersessions.1, hretractions.1⟩,
      hnodes.2.bind (hfacts.2.bind (hsupersessions.2.bind (hretractions.2.bind (writes_last hlast.2))))⟩

theorem encode_decoded {seeds : Seeds} {bytes : Vec UInt8} {s : ProjectionSnapshot MemoryProjection}
    (h : decode seeds bytes = .ok s) :
    Routes.Held s ∧ ∃ encoded, encode s = .ok encoded ∧ encoded.length ≤ bytes.items.length := by
  obtain ⟨reader, middle, last, data, hreader, hcursor, hdata, hprojection, hend, -⟩ := decode_parts h
  obtain ⟨rfl, -⟩ := (Rebuild.deserialize_holds seeds data).of_ok hprojection
  obtain ⟨-, hreader⟩ := unit_bind_eq_ok.mp hreader
  obtain rfl := Except.ok.inj hreader
  obtain ⟨hmiddle, enc, ⟨hstreams, hw⟩, hle⟩ :=
    @rewrites_cursor bytes.items.length ⟨bytes.items, header.length⟩ _ _ le_rfl hcursor
  obtain ⟨hlast, enc', ⟨hsmall, hw'⟩, hle'⟩ := @rewrites_data bytes.items.length middle _ _ (by rw [hmiddle]) hdata
  have hfits := bytes.fits
  refine ⟨⟨hsmall.nodes.1.trans_lt hfits, fun history hh => (hsmall.nodes.2 history hh).trans_lt hfits,
    hsmall.facts.1.trans_lt hfits, hsmall.supersessions.trans_lt hfits, hsmall.retractions.trans_lt hfits,
    hstreams.trans_lt hfits⟩, header ++ (enc ++ enc'), Delimiting.encode_eq_ok.mpr (hw.bind hw' header), ?_⟩
  rw [hlast, hmiddle] at hend
  rw [List.length_append, List.length_append]
  dsimp only at hle hend
  omega

theorem decode_encoded {seeds seeds' : Seeds} {bytes encoded : Vec UInt8} {s : ProjectionSnapshot MemoryProjection}
    (h : decode seeds bytes = .ok s) (hencode : encode s = .ok encoded.items) :
    ∃ t, decode seeds' encoded = .ok t ∧ SameSnapshot SameData t s := by
  obtain ⟨hvalid, hconfident⟩ := Routes.decode_confident h
  obtain ⟨other, hother, hload⟩ := Routes.loads hvalid hconfident (position_of_decode h) (encode_decoded h).1
  obtain rfl : encoded.items = other := Except.ok.inj (hencode.symm.trans hother)
  obtain ⟨q, hq, hdata⟩ := hload encoded.fits seeds'
  exact ⟨_, hq, rfl, hdata⟩

/-- The decoder takes many strings for a snapshot, and the encoder picks one of them for all: it is no longer than any
other, decodes to the same cursor and data, and is where decoding and encoding come to rest. -/
theorem decode_canonical {seeds : Seeds} {bytes : Vec UInt8} {s : ProjectionSnapshot MemoryProjection}
    (h : decode seeds bytes = .ok s) :
    ∃ canonical : Vec UInt8, encode s = .ok canonical.items ∧ canonical.items.length ≤ bytes.items.length ∧
      (∀ seeds', ∃ t, decode seeds' canonical = .ok t ∧ SameSnapshot SameData t s ∧ encode t = .ok canonical.items) ∧
      ∀ seeds' other t, decode seeds' other = .ok t →
        (encode t = .ok canonical.items ↔ SameSnapshot SameData t s) ∧
        (SameSnapshot SameData t s → canonical.items.length ≤ other.items.length) := by
  obtain ⟨-, encoded, hencode, hle⟩ := encode_decoded h
  let canonical : Vec UInt8 := ⟨encoded, hle.trans_lt bytes.fits⟩
  have hencode : encode s = .ok canonical.items := hencode
  refine ⟨canonical, hencode, hle, fun seeds' => ?_, fun seeds' other t ht =>
    ⟨⟨fun ht' => ?_, fun hsame => (encode_congr hsame).trans hencode⟩, fun hsame => ?_⟩⟩
  · obtain ⟨t, ht, hsame⟩ := decode_encoded h hencode
    exact ⟨t, ht, hsame, (encode_congr hsame).trans hencode⟩
  · obtain ⟨r, hr, hrs⟩ := @decode_encoded _ seeds' _ _ _ h hencode
    obtain ⟨r', hr', hrt⟩ := decode_encoded ht ht'
    obtain rfl : r = r' := Except.ok.inj (hr.symm.trans hr')
    exact same_of_loaded hrt hrs
  · obtain ⟨-, again, hagain, hshort⟩ := encode_decoded ht
    have heq : canonical.items = again := Except.ok.inj (hencode.symm.trans ((encode_congr hsame).symm.trans hagain))
    exact heq ▸ hshort

/-- An empty snapshot whose count of streams takes two bytes. -/
def overlong : Vec UInt8 := ⟨header ++ [0, 0x80, 0, 0, 0, 0, 0, 0], by decide⟩

theorem decode_canonical_overlong : ∃ s, ∃ canonical : Vec UInt8, decode ⟨1, 2⟩ overlong = .ok s ∧
    encode s = .ok canonical.items ∧ canonical.items.length < overlong.items.length ∧
    ∃ t, decode ⟨3, 4⟩ canonical = .ok t ∧ SameSnapshot SameData t s := by
  have hlength : ((decode ⟨1, 2⟩ overlong).bind encode).map List.length = .ok 15 := by decide +kernel
  obtain ⟨s, hs⟩ : ∃ s, decode ⟨1, 2⟩ overlong = .ok s := exists_ok_of_isOk (by decide +kernel)
  obtain ⟨canonical, hencode, -, hloads, -⟩ := decode_canonical hs
  obtain ⟨t, ht, hsame, -⟩ := hloads ⟨3, 4⟩
  rw [hs, Except.bind, hencode] at hlength
  have hfifteen : canonical.items.length = 15 := Except.ok.inj hlength
  exact ⟨s, canonical, hs, hencode, hfifteen ▸ by decide, t, ht, hsame⟩

end WeavatrixMemory.Snapshot.Canonical
