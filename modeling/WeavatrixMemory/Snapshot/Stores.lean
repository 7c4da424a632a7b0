import WeavatrixMemory.Codecs.Layers
import WeavatrixMemory.Snapshot.Generations
import WeavatrixMemory.Snapshot.Routes

namespace WeavatrixMemory.Snapshot.Stores

open Error Identity Domain Codecs.Basic Codecs.Layers
open Codecs.Compression (Block)
open Codecs.Encryption
  (Bytes StaticKey cipher cipher_inverts fixedHeaderLen maxKeyIdBytes tagLen encrypt_eq_ok encrypt_nonce)
open Snapshot.Frame Snapshot.File Generations
open Projection.State Projection.Memory Projection.Invariant Projection.Replay Resume Routes

structure InMemorySnapshotStore (P : Type) where
  snapshots : BTreeMap UInt64 (ProjectionSnapshot P)

instance decidableSameSnapshot {P : Type} (same : P → P → Prop) [DecidableRel same] (a b : ProjectionSnapshot P) :
    Decidable (SameSnapshot same a b) := inferInstanceAs (Decidable (_ ∧ _))

def InMemorySnapshotStore.default {P : Type} : InMemorySnapshotStore P := ⟨∅⟩

def InMemorySnapshotStore.save {P : Type} (same : P → P → Prop) [DecidableRel same] (snapshot : ProjectionSnapshot P) :
    Update (InMemorySnapshotStore P) Unit := do
  let position ← requirePosition snapshot
  let store ← get
  match store.snapshots[position]? with
  | some existing => throwIf (¬ SameSnapshot same existing snapshot) conflict
  | none => set (⟨store.snapshots.insert position snapshot⟩ : InMemorySnapshotStore P)

def InMemorySnapshotStore.loadLatest {P : Type} (store : InMemorySnapshotStore P) :
    Result (Option (ProjectionSnapshot P)) :=
  .ok (store.snapshots.maxKey?.bind fun position => store.snapshots[position]?)

def SameData (p q : MemoryProjection) : Prop := p.data = q.data

instance decidableSameData : DecidableRel SameData := fun p q => inferInstanceAs (Decidable (p.data = q.data))

/-- `CompactSnapshotCodec`. The seeds are those of the projection that is decoded. -/
def compactCodec (seeds : Seeds) : Codec (ProjectionSnapshot MemoryProjection) where
  encode snapshot := do
    let bytes ← Compact.encode snapshot
    Store.Frame.extendFromSlice ⟨[], nil_fits⟩ bytes
  decode bytes := if h : bytes.length < 2 ^ 63 then Compact.decode seeds ⟨bytes, h⟩ else .error .panicked

structure Setup where
  crates : Crates
  layers : List Layer
  filePrefix : String
  options : SnapshotOptions
  mappedReads : Bool
  validPrefix : ValidPrefix filePrefix
  positive : options.maxSnapshotBytes ≠ 0

def Setup.store (setup : Setup) (seeds : Seeds) (draws : Nat → Draw) : FileSnapshotStore MemoryProjection where
  filePrefix := setup.filePrefix
  codec := stack setup.crates (compactCodec seeds) setup.layers draws
  options := setup.options
  mappedReads := setup.mappedReads
  validPrefix := setup.validPrefix
  positive := setup.positive

/-- The snapshots of replays and of resumed replays, also those that went through the format. -/
inductive ReplayProduced : ProjectionSnapshot MemoryProjection → Prop
  | replay {seeds : Seeds} {events : List (StoredEvent MemoryEvent)} {p : MemoryProjection} {cursor : ReplayCursor}
      (h : replayTracked (memory seeds) events = .ok (p, cursor)) : ReplayProduced ⟨cursor, p⟩
  | resume {seeds : Seeds} {s : ProjectionSnapshot MemoryProjection} {tail : List (StoredEvent MemoryEvent)}
      {p : MemoryProjection} {cursor : ReplayCursor} (hs : ReplayProduced s)
      (h : Projection.Replay.resume (memory seeds) s tail = .ok (p, cursor)) : ReplayProduced ⟨cursor, p⟩
  | loaded {seeds : Seeds} {bytes : Vec UInt8} {s t : ProjectionSnapshot MemoryProjection} (hs : ReplayProduced s)
      (hencode : Compact.encode s = .ok bytes.items) (h : Compact.decode seeds bytes = .ok t) : ReplayProduced t

/-- A replay-produced snapshot within the size limits, at a time when keys and nonces are available. -/
structure Proper (setup : Setup) (draws : Nat → Draw) (snapshot : ProjectionSnapshot MemoryProjection) : Prop where
  produced : ReplayProduced snapshot
  held : Held snapshot
  compact : ∀ bytes, Compact.encode snapshot = .ok bytes → bytes.length < 2 ^ 63
  available : Available setup.layers draws
  fits : ∀ seeds, Fits setup.crates (compactCodec seeds) setup.layers draws snapshot
  limit : ∀ seeds bytes, (setup.store seeds draws).codec.encode snapshot = .ok bytes →
    bytes.items.length ≤ setup.options.maxSnapshotBytes ∧ headerLen + bytes.items.length < 2 ^ 63

abbrev Saves : Type := List (ProjectionSnapshot MemoryProjection × (Nat → Draw))

/-- The decoder accepts the confidences, and a snapshot that has been saved before is encrypted as it
was then. -/
structure Repeatable (setup : Setup) (saves : Saves) (draws : Nat → Draw)
    (snapshot : ProjectionSnapshot MemoryProjection) : Prop where
  confident : ∀ fact ∈ snapshot.projection.facts, fact.confidence.basisPoints ≤ 10000
  repeats : ∀ earlier ∈ saves, SameSnapshot SameData earlier.1 snapshot → SameDraws setup.layers earlier.2 draws

/-- The same calls on a file store, whose directory is empty at first, and on a store in memory, with
the saves that the latter has accepted. -/
inductive Run (setup : Setup) : Directory → InMemorySnapshotStore MemoryProjection → Saves → Prop
  | start : Run setup (fun _ => none) .default []
  | save {directory : Directory} {store : InMemorySnapshotStore MemoryProjection} {saves : Saves} (ticket : Ticket)
      (seeds : Seeds) {draws : Nat → Draw} {snapshot : ProjectionSnapshot MemoryProjection}
      (h : Run setup directory store saves) (hproper : Proper setup draws snapshot)
      (hrepeats : Repeatable setup saves draws snapshot) :
      Run setup (after (File.save (setup.store seeds draws) ticket snapshot directory))
        (after (InMemorySnapshotStore.save SameData snapshot store))
        (if accepted (InMemorySnapshotStore.save SameData snapshot store) then (snapshot, draws) :: saves else saves)

theorem same_of_loaded {a b c : ProjectionSnapshot MemoryProjection} (hb : SameSnapshot SameData a b)
    (hc : SameSnapshot SameData a c) : SameSnapshot SameData b c :=
  ⟨hb.1.symm.trans hc.1, hb.2.symm.trans hc.2⟩

theorem position_of_decode {seeds : Seeds} {bytes : Vec UInt8} {s : ProjectionSnapshot MemoryProjection}
    (h : Compact.decode seeds bytes = .ok s) : s.cursor.globalPosition = s.projection.lastGlobalPosition := by
  obtain ⟨_, _, _, _, -, -, -, -, -, hposition⟩ := RoundTrip.decode_parts h
  exact hposition

theorem ReplayProduced.valid {s : ProjectionSnapshot MemoryProjection} (h : ReplayProduced s) :
    Valid s.projection ∧ s.cursor.globalPosition = s.projection.lastGlobalPosition := by
  induction h with
  | replay h =>
      have hreplayed := replayTracked_replayed h
      exact ⟨hreplayed.valid, hreplayed.position⟩
  | @resume seeds s tail p cursor _ h ih =>
      refine @applyLoop_run _ _ (memory seeds).apply false
        (fun _ p cursor => Valid p ∧ cursor.globalPosition = p.lastGlobalPosition) ?_ tail [] [] _ _ _ _ ih h
      intro before event p q cursor hp hq
      obtain ⟨change, -, ha, rfl⟩ := Projection.Admission.apply_eq_ok.mp hq
      exact ⟨hp.1.applied ha, rfl⟩
  | loaded _ _ h => exact ⟨(decode_confident h).1, position_of_decode h⟩

theorem encode_congr {a b : ProjectionSnapshot MemoryProjection} (h : SameSnapshot SameData a b) :
    Compact.encode a = Compact.encode b := by
  obtain ⟨hcursor, hdata⟩ := h
  simp only [SameData, MemoryProjection.data, ProjectionData.mk.injEq] at hdata
  obtain ⟨hnodes, hfacts, hsupersessions, hretractions, hlast⟩ := hdata
  simp only [Compact.encode, Compact.writeProjection, hcursor, hnodes, hfacts, hsupersessions, hretractions, hlast]

variable {setup : Setup} {draws draws' : Nat → Draw} {directory : Directory}
  {store : InMemorySnapshotStore MemoryProjection} {saves : Saves}

structure Stored (setup : Setup) (draws : Nat → Draw) (snapshot : ProjectionSnapshot MemoryProjection)
    (frame bytes : Vec UInt8) : Prop where
  framed : ∀ seeds, encodeFrame (setup.store seeds draws) snapshot = .ok frame
  items : frame.items = frameOf bytes.items
  limit : bytes.items.length ≤ setup.options.maxSnapshotBytes
  decodes : ∀ seeds draws', ∃ loaded, (setup.store seeds draws').codec.decode bytes.items = .ok loaded ∧
    SameSnapshot SameData loaded snapshot

theorem stored_of_proper (hcrates : setup.crates.Invert) {snapshot : ProjectionSnapshot MemoryProjection}
    (h : Proper setup draws snapshot)
    (hconfident : ∀ fact ∈ snapshot.projection.facts, fact.confidence.basisPoints ≤ 10000) :
    ∃ frame bytes, Stored setup draws snapshot frame bytes := by
  obtain ⟨hvalid, hposition⟩ := h.produced.valid
  obtain ⟨compact, hcompact, hdecode⟩ := loads hvalid hconfident hposition h.held
  have hlt := h.compact compact hcompact
  obtain ⟨raw, hraw, hitems⟩ := @Store.Frame.extendFromSlice_of_lt ⟨[], nil_fits⟩ compact (by simpa using hlt)
  rw [List.nil_append] at hitems
  have hbase (seeds : Seeds) : (compactCodec seeds).encode snapshot = .ok raw := by
    simp only [compactCodec, hcompact, hraw, ok_bind]
  obtain ⟨bytes, hbytes⟩ := stack_encode hcrates (hbase ⟨0, 0⟩) h.available (h.fits ⟨0, 0⟩)
  have hencode (seeds : Seeds) : (setup.store seeds draws).codec.encode snapshot = .ok bytes :=
    (stack_encode_congr ((hbase seeds).trans (hbase ⟨0, 0⟩).symm) (sameDraws_refl _ _)).trans hbytes
  obtain ⟨hmax, hroom⟩ := h.limit ⟨0, 0⟩ bytes (hencode ⟨0, 0⟩)
  obtain ⟨frame, hframe⟩ := encode_of_lt hroom
  refine ⟨frame, bytes, fun seeds => ?_, encode_eq_ok hframe, hmax, fun seeds draws' => ?_⟩
  · have hlimit : ¬ (setup.store seeds draws).options.maxSnapshotBytes < bytes.items.length := Nat.not_lt.mpr hmax
    simp only [encodeFrame, hencode, ok_bind, throwIf_of_not hlimit, hframe]
  · obtain ⟨other, hother, hclosed⟩ := stack_decode hcrates h.available hbytes
    obtain rfl : raw = other := Except.ok.inj ((hbase ⟨0, 0⟩).symm.trans hother)
    obtain ⟨q, hq, hdata⟩ := hdecode (hitems ▸ raw.fits) seeds
    refine ⟨⟨snapshot.cursor, q⟩, ?_, rfl, hdata⟩
    rw [show (setup.store seeds draws').codec.decode bytes.items = _ from hclosed (compactCodec seeds) draws']
    simp only [compactCodec, hitems, dif_pos (hitems ▸ raw.fits : compact.length < 2 ^ 63), hq]

theorem Stored.same {a b : ProjectionSnapshot MemoryProjection} {frame bytes bytes' : Vec UInt8}
    (ha : Stored setup draws a frame bytes) (hb : Stored setup draws' b frame bytes') : SameSnapshot SameData a b := by
  have hbytes : bytes.items = bytes'.items := frameOf_inj.mp (ha.items.symm.trans hb.items)
  obtain ⟨loaded, hloaded, hsame⟩ := ha.decodes ⟨0, 0⟩ draws
  obtain ⟨loaded', hloaded', hsame'⟩ := hb.decodes ⟨0, 0⟩ draws
  rw [← hbytes, hloaded, Except.ok.injEq] at hloaded'
  subst hloaded'
  exact same_of_loaded hsame hsame'

theorem Stored.congr {a b : ProjectionSnapshot MemoryProjection} {frame frame' bytes bytes' : Vec UInt8}
    (ha : Stored setup draws a frame bytes) (hb : Stored setup draws' b frame' bytes')
    (hsame : SameSnapshot SameData a b) (hdraws : SameDraws setup.layers draws draws') : frame = frame' := by
  have hbase : (compactCodec ⟨0, 0⟩).encode a = (compactCodec ⟨0, 0⟩).encode b := by
    simp only [compactCodec, encode_congr hsame]
  have hencode : (setup.store ⟨0, 0⟩ draws).codec.encode a = (setup.store ⟨0, 0⟩ draws').codec.encode b :=
    stack_encode_congr hbase hdraws
  have hframe := ha.framed ⟨0, 0⟩
  simp only [encodeFrame, hencode] at hframe
  exact Except.ok.inj (hframe.symm.trans (hb.framed ⟨0, 0⟩))

/-- The directory has a file for each snapshot that is in memory. -/
structure Simulates (setup : Setup) (directory : Directory) (store : InMemorySnapshotStore MemoryProjection)
    (saves : Saves) : Prop where
  named : Named directory
  absent : ∀ position, directory (finalPath setup.filePrefix position) = none ↔ store.snapshots[position]? = none
  present : ∀ position snapshot, store.snapshots[position]? = some snapshot → ∃ draws frame bytes,
    directory (finalPath setup.filePrefix position) = some frame ∧ (snapshot, draws) ∈ saves ∧
      snapshot.cursor.globalPosition = some position ∧ Stored setup draws snapshot frame bytes
  saved : ∀ save ∈ saves, ∃ position existing, save.1.cursor.globalPosition = some position ∧
    store.snapshots[position]? = some existing ∧ SameSnapshot SameData existing save.1

theorem save_memory_eq {snapshot : ProjectionSnapshot MemoryProjection} {position : UInt64}
    (hposition : snapshot.cursor.globalPosition = some position) (store : InMemorySnapshotStore MemoryProjection) :
    InMemorySnapshotStore.save SameData snapshot store = match store.snapshots[position]? with
      | some existing => if SameSnapshot SameData existing snapshot then .ok () store else .error conflict store
      | none => .ok () ⟨store.snapshots.insert position snapshot⟩ := by
  simp only [InMemorySnapshotStore.save, requirePosition, hposition, bind_apply, liftM_eq, ofResult_ok, get_apply]
  cases store.snapshots[position]? with
  | some existing =>
      by_cases h : SameSnapshot SameData existing snapshot
      · simp only [h, not_true_eq_false, not_false_eq_true, throwIf_of_not, ofResult_ok, if_true]
      · simp only [throwIf, h, not_false_eq_true, if_true, ofResult_error, if_false]
  | none => rfl

theorem save_memory_eq_error {snapshot : ProjectionSnapshot MemoryProjection}
    (hposition : snapshot.cursor.globalPosition = none) (store : InMemorySnapshotStore MemoryProjection) :
    ∃ e, requirePosition snapshot = .error e ∧
      InMemorySnapshotStore.save SameData snapshot store = .error e store := by
  refine ⟨_, by rw [requirePosition, hposition], ?_⟩
  simp only [InMemorySnapshotStore.save, requirePosition, hposition, bind_apply, liftM_eq, ofResult_error]

theorem Simulates.grow (h : Simulates setup directory store saves)
    {snapshot existing : ProjectionSnapshot MemoryProjection} {position : UInt64}
    (hposition : snapshot.cursor.globalPosition = some position) (hm : store.snapshots[position]? = some existing)
    (hsame : SameSnapshot SameData existing snapshot) (draws : Nat → Draw) :
    Simulates setup directory store ((snapshot, draws) :: saves) := by
  refine ⟨h.named, h.absent, fun n other hother => ?_, ?_⟩
  · obtain ⟨others, frame, bytes, hfile, hmem, hrest⟩ := h.present n other hother
    exact ⟨others, frame, bytes, hfile, List.mem_cons_of_mem _ hmem, hrest⟩
  · exact List.forall_mem_cons.mpr ⟨⟨position, existing, hposition, hm, hsame⟩, h.saved⟩

theorem Simulates.insert (h : Simulates setup directory store saves)
    {snapshot : ProjectionSnapshot MemoryProjection} {position : UInt64} {frame bytes : Vec UInt8}
    (hposition : snapshot.cursor.globalPosition = some position) (hstored : Stored setup draws snapshot frame bytes)
    (hm : store.snapshots[position]? = none) :
    Simulates setup (Function.update directory (finalPath setup.filePrefix position) (some frame))
      ⟨store.snapshots.insert position snapshot⟩ ((snapshot, draws) :: saves) := by
  have hpaths {n : UInt64} (hn : n ≠ position) :
      finalPath setup.filePrefix n ≠ finalPath setup.filePrefix position := fun heq => hn (finalPath_inj.mp heq).2
  refine ⟨fun name hfile => ?_, fun n => ?_, fun n other hother => ?_, List.forall_mem_cons.mpr ⟨?_, fun save hs => ?_⟩⟩
  · by_cases hname : name = finalPath setup.filePrefix position
    · exact ⟨_, position, hname⟩
    · rw [Function.update_of_ne hname] at hfile
      exact h.named name hfile
  · rw [getElem?_insert]
    by_cases hn : n = position
    · subst hn
      rw [Function.update_self, if_pos rfl]
      exact iff_of_false (Option.some_ne_none _) (Option.some_ne_none _)
    · rw [Function.update_of_ne (hpaths hn), if_neg hn]
      exact h.absent n
  · rw [getElem?_insert] at hother
    by_cases hn : n = position
    · subst hn
      rw [if_pos rfl, Option.some.injEq] at hother
      subst hother
      exact ⟨draws, frame, bytes, Function.update_self _ _ _, List.mem_cons_self, hposition, hstored⟩
    · rw [if_neg hn] at hother
      rw [Function.update_of_ne (hpaths hn)]
      obtain ⟨others, file, kept, hfile, hmem, hrest⟩ := h.present n other hother
      exact ⟨others, file, kept, hfile, List.mem_cons_of_mem _ hmem, hrest⟩
  · refine ⟨position, snapshot, hposition, ?_, rfl, rfl⟩
    rw [getElem?_insert, if_pos rfl]
  · obtain ⟨n, existing, hn, hexisting, hsame⟩ := h.saved save hs
    refine ⟨n, existing, hn, ?_, hsame⟩
    have hne : n ≠ position := by
      rintro rfl
      rw [hm] at hexisting
      cases hexisting
    rw [getElem?_insert, if_neg hne]
    exact hexisting

theorem Simulates.save (h : Simulates setup directory store saves) (hcrates : setup.crates.Invert)
    {snapshot : ProjectionSnapshot MemoryProjection} (hproper : Proper setup draws snapshot)
    (hrepeats : Repeatable setup saves draws snapshot) (ticket : Ticket) (seeds : Seeds) :
    (∃ e, File.save (setup.store seeds draws) ticket snapshot directory = .error e directory ∧
      InMemorySnapshotStore.save SameData snapshot store = .error e store) ∨
    ∃ directory' store', File.save (setup.store seeds draws) ticket snapshot directory = .ok () directory' ∧
      InMemorySnapshotStore.save SameData snapshot store = .ok () store' ∧
      Simulates setup directory' store' ((snapshot, draws) :: saves) := by
  cases hposition : snapshot.cursor.globalPosition with
  | none =>
      obtain ⟨e, he, hmemory⟩ := save_memory_eq_error hposition store
      exact .inl ⟨e, save_eq_error (.inl he) ticket directory, hmemory⟩
  | some position =>
      obtain ⟨frame, bytes, hstored⟩ := stored_of_proper hcrates hproper hrepeats.confident
      have hsave := save_eq hposition (hstored.framed seeds) h.named.tidy ticket
      have hmemory := save_memory_eq hposition store
      rw [show (setup.store seeds draws).filePrefix = setup.filePrefix from rfl] at hsave
      cases hm : store.snapshots[position]? with
      | some existing =>
          obtain ⟨others, file, kept, hfile, hmem, -, hkept⟩ := h.present position existing hm
          rw [hfile] at hsave
          rw [hm] at hmemory
          dsimp only at hsave hmemory
          by_cases hsame : SameSnapshot SameData existing snapshot
          · rw [if_pos (hkept.congr hstored hsame (hrepeats.repeats _ hmem hsame))] at hsave
            rw [if_pos hsame] at hmemory
            exact .inr ⟨_, _, hsave, hmemory, h.grow hposition hm hsame draws⟩
          · have hne : file ≠ frame := by
              rintro rfl
              exact hsame (hkept.same hstored)
            rw [if_neg hne] at hsave
            rw [if_neg hsame] at hmemory
            exact .inl ⟨_, hsave, hmemory⟩
      | none =>
          rw [(h.absent position).mpr hm] at hsave
          rw [hm] at hmemory
          exact .inr ⟨_, _, hsave, hmemory, h.insert hposition hstored hm⟩

theorem Run.simulates (hcrates : setup.crates.Invert) (h : Run setup directory store saves) :
    Simulates setup directory store saves := by
  induction h with
  | start =>
      refine ⟨fun _ hfile => absurd rfl hfile, fun position => ?_, fun position snapshot hm => ?_,
        fun _ hmem => absurd hmem List.not_mem_nil⟩
      · exact iff_of_true rfl Std.ExtTreeMap.getElem?_empty
      · rw [InMemorySnapshotStore.default, Std.ExtTreeMap.getElem?_empty] at hm
        cases hm
  | save ticket seeds _ hproper hrepeats ih =>
      obtain ⟨e, hfile, hmemory⟩ | ⟨directory', store', hfile, hmemory, hnext⟩ :=
        ih.save hcrates hproper hrepeats ticket seeds
      · simp only [hfile, hmemory, after_error, accepted, Bool.false_eq_true, if_false]
        exact ih
      · simp only [hfile, hmemory, after_ok, accepted, if_true]
        exact hnext

theorem Simulates.loadLatest (h : Simulates setup directory store saves) {entries : List String}
    (hentries : Lists directory entries) (seeds : Seeds) (draws : Nat → Draw) :
    ∃ loaded latest, File.loadLatest (setup.store seeds draws) directory entries = .ok loaded ∧
      store.loadLatest = .ok latest ∧ Option.Rel (SameSnapshot SameData) loaded latest := by
  cases hl : latestPath setup.filePrefix entries with
  | none =>
      refine ⟨none, none, ?_, ?_, .none⟩
      · rw [File.loadLatest, show latestPath (setup.store seeds draws).filePrefix entries = none from hl]
      · cases hk : store.snapshots.maxKey? with
        | none => rw [InMemorySnapshotStore.loadLatest, hk, Option.bind_none]
        | some position =>
            rw [InMemorySnapshotStore.loadLatest, hk, Option.bind_some,
              (h.absent position).mp (latestPath_eq_none hentries hl position)]
  | some current =>
      obtain ⟨position, path⟩ := current
      obtain ⟨rfl, hfile, hmax⟩ := latestPath_eq_some h.named hentries hl
      obtain ⟨snapshot, hm⟩ := Option.ne_none_iff_exists'.mp (mt (h.absent position).mpr hfile)
      obtain ⟨others, frame, bytes, hframe, -, hposition, hstored⟩ := h.present position snapshot hm
      obtain ⟨loaded, hloaded, hsame⟩ := hstored.decodes seeds draws
      have hread : readPath (setup.store seeds draws) directory (finalPath setup.filePrefix position) position =
          .ok loaded := readPath_eq hframe hstored.items hstored.limit hloaded (hsame.1 ▸ hposition)
      have hkey : store.snapshots.maxKey? = some position := by
        refine Std.ExtTreeMap.maxKey?_eq_some_iff_mem_and_forall.mpr ⟨?_, fun n hn => ?_⟩
        · exact Std.ExtTreeMap.mem_iff_isSome_getElem?.mpr (by rw [hm]; rfl)
        · have hother : directory (finalPath setup.filePrefix n) ≠ none := by
            rw [ne_eq, h.absent n]
            intro hnone
            have hsome := Std.ExtTreeMap.mem_iff_isSome_getElem?.mp hn
            rw [hnone] at hsome
            cases hsome
          exact Std.isLE_compare.mpr (hmax n hother)
      refine ⟨some loaded, some snapshot, ?_, ?_, .some hsame⟩
      · rw [File.loadLatest, show latestPath (setup.store seeds draws).filePrefix entries = _ from hl]
        dsimp only
        rw [hread]
        rfl
      · rw [InMemorySnapshotStore.loadLatest, hkey, Option.bind_some, hm]

theorem Simulates.resave (h : Simulates setup directory store saves) {snapshot : ProjectionSnapshot MemoryProjection}
    (hsaved : ∃ earlier ∈ saves, SameSnapshot SameData earlier.1 snapshot) :
    accepted (InMemorySnapshotStore.save SameData snapshot store) = true := by
  obtain ⟨earlier, hmem, hequal⟩ := hsaved
  obtain ⟨position, existing, hposition, hm, hsame⟩ := h.saved earlier hmem
  have hexisting : SameSnapshot SameData existing snapshot := ⟨hsame.1.trans hequal.1, hsame.2.trans hequal.2⟩
  rw [hequal.1] at hposition
  rw [save_memory_eq hposition, hm]
  dsimp only
  rw [if_pos hexisting]
  rfl

/-- In a run in which equal snapshots are encrypted alike and the decoder accepts the confidences, the
two stores cannot be told apart. -/
theorem stores_agree (setup : Setup) (hcrates : setup.crates.Invert) (directory : Directory)
    (store : InMemorySnapshotStore MemoryProjection) (saves : Saves) (h : Run setup directory store saves) :
    (∀ ticket seeds draws snapshot, Proper setup draws snapshot → Repeatable setup saves draws snapshot →
      accepted (File.save (setup.store seeds draws) ticket snapshot directory) =
          accepted (InMemorySnapshotStore.save SameData snapshot store) ∧
        ((∃ earlier ∈ saves, SameSnapshot SameData earlier.1 snapshot) →
          accepted (File.save (setup.store seeds draws) ticket snapshot directory) = true)) ∧
    ∀ seeds draws entries, Lists directory entries →
      ∃ loaded latest, File.loadLatest (setup.store seeds draws) directory entries = .ok loaded ∧
        store.loadLatest = .ok latest ∧ Option.Rel (SameSnapshot SameData) loaded latest := by
  have hsimulates := h.simulates hcrates
  refine ⟨fun ticket seeds draws snapshot hproper hrepeats => ?_, fun seeds draws entries hentries => ?_⟩
  · have hequal : accepted (File.save (setup.store seeds draws) ticket snapshot directory) =
        accepted (InMemorySnapshotStore.save SameData snapshot store) := by
      obtain ⟨e, hfile, hmemory⟩ | ⟨directory', store', hfile, hmemory, -⟩ :=
        hsimulates.save hcrates hproper hrepeats ticket seeds
      · rw [hfile, hmemory]
        rfl
      · rw [hfile, hmemory]
        rfl
    exact ⟨hequal, fun hsaved => hequal.trans (hsimulates.resave hsaved)⟩
  · exact hsimulates.loadLatest hentries seeds draws

def literalBlock : Block where
  maximumOutputSize n := n
  compressInto raw _ := some raw
  decompressInto payload n := if payload.length = n then some payload else none

theorem literalBlock_inverts : literalBlock.Inverts where
  roomy n := le_rfl
  compresses raw := ⟨raw, rfl⟩
  restores raw compressed h := by
    obtain rfl := Option.some.inj h
    exact if_pos rfl

def staticKey : StaticKey where
  key := ⟨⟨"primary", by decide⟩, ⟨List.replicate 32 7, rfl⟩⟩
  valid := by decide +kernel

/-- A file store whose snapshots are encrypted under one key. -/
def encryptedSetup : Setup where
  crates := ⟨literalBlock, cipher⟩
  layers := [.xchacha ⟨[0x63, 0x74, 0x78], by decide⟩ 65536 staticKey.keys.decryptionKey (by decide) (by decide)]
  filePrefix := "context"
  options := ⟨65536⟩
  mappedReads := false
  validPrefix := by decide +kernel
  positive := by decide

def drawOf (count : UInt8) : Nat → Draw := fun _ =>
  ⟨staticKey.keys.activeKey, .ok ⟨count :: List.replicate 23 0, rfl⟩⟩

def firstEvent : StoredEvent MemoryEvent :=
  Common.stored 0 (Common.event (Common.eventId 0) (Common.ts 1) (.nodeUpserted (Common.node Common.task)))

def firstSnapshot : ProjectionSnapshot MemoryProjection :=
  ⟨ReplayCursor.default.after firstEvent, applyAll ⟨1, 2⟩ [firstEvent]⟩

theorem replayTracked_firstEvent : replayTracked (memory ⟨1, 2⟩) [firstEvent] =
    .ok (firstSnapshot.projection, firstSnapshot.cursor) := by
  refine applyLoop_cons_eq_ok.mpr ⟨⟨List.not_mem_nil, rfl, rfl⟩, _, eq_ok_of_accepted (by decide +kernel), rfl⟩

theorem encode_firstSnapshot {bytes : List UInt8} (h : Compact.encode firstSnapshot = .ok bytes) :
    bytes.length = 55 := by
  have hlength : (Compact.encode firstSnapshot).map List.length = .ok 55 := by decide +kernel
  rw [h] at hlength
  exact Except.ok.inj hlength

theorem compactCodec_firstSnapshot {seeds : Seeds} {raw : Vec UInt8}
    (h : (compactCodec seeds).encode firstSnapshot = .ok raw) : raw.items.length = 55 := by
  obtain ⟨bytes, hbytes, hraw⟩ := bind_eq_ok.mp h
  rw [Store.Frame.extendFromSlice_eq_ok hraw, List.nil_append, encode_firstSnapshot hbytes]

theorem proper_firstSnapshot (count : UInt8) : Proper encryptedSetup (drawOf count) firstSnapshot where
  produced := .replay replayTracked_firstEvent
  held := ⟨by decide +kernel, by decide +kernel, by decide +kernel, by decide +kernel, by decide +kernel,
    by decide +kernel⟩
  compact bytes h := by
    rw [encode_firstSnapshot h]
    decide
  available := ⟨⟨_, _, rfl, staticKey.valid, staticKey.decryptionKey_id, rfl⟩, trivial⟩
  fits seeds := by
    refine ⟨trivial, fun raw hraw => ?_⟩
    change raw.items.length ≤ 65536 ∧ raw.items.length ≤ XChaCha.maxMessage ∧ _ ∧
      fixedHeaderLen + maxKeyIdBytes + raw.items.length + tagLen < 2 ^ 63
    rw [compactCodec_firstSnapshot hraw]
    exact ⟨by decide, by decide, by decide, by decide⟩
  limit seeds bytes h := by
    obtain ⟨raw, hraw, hclosed⟩ := bind_eq_ok.mp h
    obtain ⟨-, key, nonce, hkey, -, hencrypted⟩ := encrypt_eq_ok hclosed
    obtain ⟨ciphertext, tag, hcipher, hbytes⟩ := hencrypted.encrypted
    obtain ⟨hc, ht⟩ := cipher_inverts.lengths _ _ _ _ _ _ hcipher
    obtain rfl : staticKey.key = key := Except.ok.inj hkey
    have hid : staticKey.key.id.bytes.length = 7 := by decide +kernel
    rw [hbytes, List.length_append, List.length_append, Codecs.Encryption.length_headerOf, hid, hc, ht,
      compactCodec_firstSnapshot hraw]
    exact ⟨by decide, by decide⟩

def savedOnce : Directory :=
  after (File.save (encryptedSetup.store ⟨0, 0⟩ (drawOf 1)) ⟨0, 0⟩ firstSnapshot fun _ => none)

def inMemoryOnce : InMemorySnapshotStore MemoryProjection :=
  after (InMemorySnapshotStore.save SameData firstSnapshot .default)

theorem repeatable_firstSnapshot (saves : Saves) (h : ∀ earlier ∈ saves, earlier.2 = drawOf 1) :
    Repeatable encryptedSetup saves (drawOf 1) firstSnapshot where
  confident := by decide +kernel
  repeats earlier hmem _ := by
    rw [h earlier hmem]
    exact sameDraws_refl _ _

theorem run_once : Run encryptedSetup savedOnce inMemoryOnce [(firstSnapshot, drawOf 1)] := by
  have hrun := Run.save ⟨0, 0⟩ ⟨0, 0⟩ .start (proper_firstSnapshot 1)
    (repeatable_firstSnapshot [] fun _ hmem => absurd hmem List.not_mem_nil)
  have haccepted : accepted (InMemorySnapshotStore.save SameData firstSnapshot .default) = true := by decide +kernel
  rw [if_pos haccepted] at hrun
  exact hrun

theorem stores_agree_once :
    (∀ ticket seeds draws snapshot, Proper encryptedSetup draws snapshot →
      Repeatable encryptedSetup [(firstSnapshot, drawOf 1)] draws snapshot →
      accepted (File.save (encryptedSetup.store seeds draws) ticket snapshot savedOnce) =
          accepted (InMemorySnapshotStore.save SameData snapshot inMemoryOnce) ∧
        ((∃ earlier ∈ [(firstSnapshot, drawOf 1)], SameSnapshot SameData earlier.1 snapshot) →
          accepted (File.save (encryptedSetup.store seeds draws) ticket snapshot savedOnce) = true)) ∧
    ∀ seeds draws entries, Lists savedOnce entries →
      ∃ loaded latest, File.loadLatest (encryptedSetup.store seeds draws) savedOnce entries = .ok loaded ∧
        inMemoryOnce.loadLatest = .ok latest ∧ Option.Rel (SameSnapshot SameData) loaded latest :=
  stores_agree encryptedSetup ⟨literalBlock_inverts, cipher_inverts⟩ savedOnce inMemoryOnce
    [(firstSnapshot, drawOf 1)] run_once

/-- With the next nonce, the file store refuses the snapshot that it holds. -/
theorem resaved_refused :
    (Proper encryptedSetup (drawOf 1) firstSnapshot ∧ Proper encryptedSetup (drawOf 2) firstSnapshot) ∧
      accepted (File.save (encryptedSetup.store ⟨0, 0⟩ (drawOf 1)) ⟨0, 0⟩ firstSnapshot fun _ => none) = true ∧
      accepted (InMemorySnapshotStore.save SameData firstSnapshot .default) = true ∧
      accepted (File.save (encryptedSetup.store ⟨0, 0⟩ (drawOf 2)) ⟨0, 1⟩ firstSnapshot savedOnce) = false ∧
      accepted (InMemorySnapshotStore.save SameData firstSnapshot inMemoryOnce) = true := by
  have hconfident : ∀ fact ∈ firstSnapshot.projection.facts, fact.confidence.basisPoints ≤ 10000 := by
    decide +kernel
  have hcrates : encryptedSetup.crates.Invert := ⟨literalBlock_inverts, cipher_inverts⟩
  have hposition : firstSnapshot.cursor.globalPosition = some 0 := rfl
  obtain ⟨frame, _, hstored⟩ := stored_of_proper hcrates (proper_firstSnapshot 1) hconfident
  obtain ⟨frame', _, hstored'⟩ := stored_of_proper hcrates (proper_firstSnapshot 2) hconfident
  have hempty : Tidy fun _ => none := fun _ _ => rfl
  have hsave := save_eq hposition (hstored.framed ⟨0, 0⟩) hempty ⟨0, 0⟩
  have hdirectory : savedOnce = Function.update (fun _ => none) (finalPath "context" 0) (some frame) := by
    rw [savedOnce, hsave]
    rfl
  have hne : frame ≠ frame' := by
    rintro rfl
    obtain ⟨bytes, hbytes, -, hitems⟩ := encodeFrame_eq_ok (hstored.framed ⟨0, 0⟩)
    obtain ⟨bytes', hbytes', -, hitems'⟩ := encodeFrame_eq_ok (hstored'.framed ⟨0, 0⟩)
    obtain ⟨raw, -, hclosed⟩ := bind_eq_ok.mp hbytes
    obtain ⟨raw', -, hclosed'⟩ := bind_eq_ok.mp hbytes'
    have hnonce := encrypt_nonce cipher_inverts hclosed hclosed' (frameOf_inj.mp (hitems.symm.trans hitems'))
    have hitem := congrArg Bytes.items (Except.ok.inj hnonce)
    exact absurd hitem (by decide)
  have htidy : Tidy savedOnce := (run_once.simulates hcrates).named.tidy
  have hresave := save_eq hposition (hstored'.framed ⟨0, 0⟩) htidy ⟨0, 1⟩
  have hfile : savedOnce (finalPath (encryptedSetup.store ⟨0, 0⟩ (drawOf 2)).filePrefix 0) = some frame := by
    rw [hdirectory]
    exact Function.update_self _ _ _
  rw [hfile] at hresave
  dsimp only at hresave
  rw [if_neg hne] at hresave
  refine ⟨⟨proper_firstSnapshot 1, proper_firstSnapshot 2⟩, ?_, by decide +kernel, ?_, by decide +kernel⟩
  · rw [hsave]
    rfl
  · rw [hresave]
    rfl

end WeavatrixMemory.Snapshot.Stores
