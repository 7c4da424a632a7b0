import WeavatrixMemory.Snapshot.Following
import WeavatrixMemory.Snapshot.Savers
import WeavatrixMemory.Store.Crashes
import WeavatrixMemory.Store.Subscription

namespace WeavatrixMemory.Snapshot.Restart

open Error Identity Domain Outcome Logs Relation Projection.State Projection.Memory Projection.Invariant
open Projection.Replay Resume Snapshot.Frame Snapshot.File Generations Stores Following Codecs.Basic Codecs.Layers
open Store.EventLog Store.Framing Store.Validators Store.Tracking Store.File Store.Scan Store.Crashes Store.Subscription
open Savers (names Disk Readable Served)

variable {codec : Store.Frame.Codec (StoredEvent MemoryEvent)} {options : FileStoreOptions} {setup : Setup}

structure Service where
  session : Session MemoryEvent
  disk : Disk

def Service.log (s : Service) : List (StoredEvent MemoryEvent) := s.session.store.inner.events

/-- Events are appended and snapshots saved, with whatever fails in the files and whenever calls stop. A save is
of a snapshot that follows the log, or a beginning of it. A restart opens the journal as it was left. -/
inductive Move (codec : Store.Frame.Codec (StoredEvent MemoryEvent)) (options : FileStoreOptions) (setup : Setup) :
    Service → Service → Prop
  | append {s : Service} {session : Session MemoryEvent} (h : Store.Crashes.Step s.session session) :
      Move codec options setup s { s with session := session }
  | save {s : Service} {seeds : Seeds} {draws : Nat → Draw} {ticket : Ticket}
      {snapshot : ProjectionSnapshot MemoryProjection} {position : UInt64} {frame : Vec UInt8}
      {before : List (StoredEvent MemoryEvent)} (hbefore : before <+: s.log) (hfollows : Follows before snapshot)
      (hproper : Proper setup draws snapshot)
      (hconfident : ∀ fact ∈ snapshot.projection.facts, fact.confidence.basisPoints ≤ 10000)
      (hposition : snapshot.cursor.globalPosition = some position)
      (hframe : encodeFrame (setup.store seeds draws) snapshot = .ok frame) (hfree : s.disk.calls ticket = none) :
      Move codec options setup s { s with
        disk := (s.disk.ask (finalPath setup.filePrefix position, frame)).enter ticket
          ⟨finalPath setup.filePrefix position, frame, .looking⟩ .looking }
  | write {s : Service} {disk : Disk} (h : Publishing.Step names s.disk disk) (hasked : disk.begun ⊆ s.disk.begun) :
      Move codec options setup s { s with disk := disk }
  | restart {s : Service} {crashed g : Files.File} {store : FileEventStore MemoryEvent}
      (hbytes : crashed.bytes = s.session.store.file.bytes) (h : openLog codec options crashed = .ok store g) :
      Move codec options setup s { s with session := .start store }

/-- What has been saved follows a beginning of the log, and can be read back. -/
def Backed (setup : Setup) (log : List (StoredEvent MemoryEvent)) (x : String × Vec UInt8) : Prop :=
  ∃ snapshot draws position bytes before, x.1 = finalPath setup.filePrefix position ∧
    snapshot.cursor.globalPosition = some position ∧ Stored setup draws snapshot x.2 bytes ∧ before <+: log ∧
    Follows before snapshot

structure Sound (codec : Store.Frame.Codec (StoredEvent MemoryEvent)) (options : FileStoreOptions) (setup : Setup)
    (s : Service) : Prop where
  session : ∃ opened first committed later tail,
    Store.Crashes.Sound codec options opened first s.session committed later tail
  disk : Publishing.Sound names s.disk
  backed : ∀ x ∈ s.disk.begun, Backed setup s.log x

variable {s t : Service}

theorem Backed.longer {log log' : List (StoredEvent MemoryEvent)} {x : String × Vec UInt8} (h : Backed setup log x)
    (hlog : log <+: log') : Backed setup log' x := by
  obtain ⟨snapshot, draws, position, bytes, before, hname, hposition, hstored, hbefore, hfollows⟩ := h
  exact ⟨snapshot, draws, position, bytes, before, hname, hposition, hstored, hbefore.trans hlog, hfollows⟩

theorem openLog_scanned {E : Type} {codec : Store.Frame.Codec (StoredEvent E)} {file g : Files.File}
    {store : FileEventStore E} {rest : List UInt8} {found : Blocks.Scanned (List (StoredEvent E))}
    (hbytes : file.bytes = Store.Frame.fileHeader ++ rest)
    (hscan : Blocks.Scan (readFrame codec options.maxFrameBytes) Store.Frame.fileHeader.length rest (.ok found))
    (h : openLog codec options file = .ok store g) : store.inner = ofLog found.blocks.flatten := by
  have hne : file.bytes ≠ [] := by
    rw [hbytes]
    exact List.append_ne_nil_of_left_ne_nil (by decide) _
  obtain ⟨f, hsame, hopen⟩ | ⟨e, f, hopen, -⟩ := openScanned_reaches codec options hne
  · rw [openLog, bind_apply, hopen] at h
    cases hr : scan codec options.maxFrameBytes f with
    | error e g =>
        rw [hr] at h
        cases h
    | ok outcome f' =>
        rw [hr] at h
        obtain ⟨hs, other, s, hrest, rfl, hother⟩ := (scan_ends codec options.maxFrameBytes f).of_ok hr
        rw [hsame.bytes, hbytes] at hrest
        obtain rfl := List.append_cancel_left hrest
        obtain rfl : found = s := Except.ok.inj (hscan.unique hother)
        rw [outcomeOf, List.nil_append] at h
        by_cases hc : found.complete = true
        · rw [if_pos hc] at h
          change openRecovered codec options found.blocks.flatten _ false f' = _ at h
          rw [openRecovered_complete] at h
          exact (restore_eq_ok.mp ((openStore_ends codec options _ _ f').of_ok h).inner).2
        · rw [if_neg hc] at h
          change openRecovered codec options found.blocks.flatten _ true f' = _ at h
          have hdurable := Blocks.scan_durable_le (readFrame_framing codec options.maxFrameBytes) hscan
          have hfits := f'.fits
          rw [hs.bytes, hsame.bytes, hbytes, List.length_append] at hfits
          have hle : (UInt64.ofNat found.durable).toNat ≤ f'.bytes.length := by
            rw [hs.bytes, hsame.bytes, hbytes, List.length_append,
              UInt64.toNat_ofNat_of_lt' ((hdurable.trans_lt hfits).trans (by decide))]
            exact hdurable
          exact (restore_eq_ok.mp ((openRecovered_partial_ends codec options _ hle).of_ok h).inner).2
  · rw [openLog, bind_apply, hopen] at h
    cases h

theorem append_prefix {session session' : Session MemoryEvent} {opened : List (List (StoredEvent MemoryEvent))}
    {first : List (List UInt8)} {committed : List (List (StoredEvent MemoryEvent))} {later : List (Vec UInt8)}
    {tail : List UInt8} (h : Store.Crashes.Sound codec options opened first session committed later tail)
    (hs : Store.Crashes.Step session session') :
    session.store.inner.events <+: session'.store.inner.events := by
  obtain ⟨hinner, hl⟩ := h.inner
  obtain ⟨path, stream, expected, batch, -⟩ := hs
  have hends := Store.Faults.appendBy_ends hl hinner stream expected batch path
  rw [Session.attempt]
  cases hr : Store.Faults.appendBy stream expected batch path session.store with
  | ok _ store =>
      obtain ⟨last, u, -, -, rfl⟩ := hends.of_ok hr
      rw [hinner]
      exact List.prefix_append _ _
  | error e store =>
      obtain ⟨g, rfl, -⟩ := hends.of_error hr
      exact List.prefix_refl _

theorem restart_prefix {session : Session MemoryEvent} {opened : List (List (StoredEvent MemoryEvent))}
    {first : List (List UInt8)} {committed : List (List (StoredEvent MemoryEvent))} {later : List (Vec UInt8)}
    {tail : List UInt8} (hcodec : codec.Inverts)
    (h : Store.Crashes.Sound codec options opened first session committed later tail) {crashed g : Files.File}
    {store : FileEventStore MemoryEvent} (hbytes : crashed.bytes = session.store.file.bytes)
    (hopen : openLog codec options crashed = .ok store g) : session.store.inner.events <+: store.inner.events := by
  obtain ⟨rest, found, hrest, hscan, -, hfound⟩ := h.scan hcodec
  rw [openLog_scanned (hbytes.trans hrest) hscan hopen, h.inner.1]
  obtain hsame | ⟨_, -, further, -, hmore⟩ := hfound
  · exact hsame ▸ List.prefix_refl _
  · rw [hmore]
    exact List.prefix_append _ _

theorem sound_start {file g : Files.File} {store : FileEventStore MemoryEvent}
    (h : openLog codec options file = .ok store g) : ∃ opened first committed later tail,
      Store.Crashes.Sound codec options opened first (.start store) committed later tail := by
  obtain ⟨-, opened, first, hopened⟩ := openLog_journaled h
  refine ⟨opened, first, [], [], [], ?_, .nil, .nil, .inl rfl⟩
  rwa [show written [] = ([] : List (List (StoredEvent MemoryEvent))) from rfl, List.map_nil, List.append_nil,
    List.append_nil]

theorem Sound.move (hcodec : codec.Inverts) (hcrates : setup.crates.Invert) (h : Sound codec options setup s)
    (hm : Move codec options setup s t) : Sound codec options setup t ∧ s.log <+: t.log := by
  obtain ⟨opened, first, committed, later, tail, hsession⟩ := h.session
  cases hm with
  | append hstep =>
      have hlonger := append_prefix hsession hstep
      exact ⟨⟨⟨opened, first, hsession.step hcodec hstep⟩, h.disk, fun x hx => (h.backed x hx).longer hlonger⟩, hlonger⟩
  | @save seeds draws ticket snapshot position frame before hbefore hfollows hproper hconfident hposition hframe
      hfree =>
      have hstep := @Publishing.Step.begin _ _ _ _ _ names _ _ _ frame hfree
        (Savers.final_finalPath setup.filePrefix position)
      obtain ⟨ticket, heffect⟩ := hstep.effect h.disk Savers.names_apart
      refine ⟨⟨h.session, heffect.sound h.disk Savers.names_apart, List.forall_mem_cons.mpr ⟨?_, h.backed⟩⟩,
        List.prefix_refl _⟩
      obtain ⟨other, bytes, hstored⟩ := stored_of_proper hcrates hproper hconfident
      obtain rfl : other = frame := Except.ok.inj ((hstored.framed seeds).symm.trans hframe)
      exact ⟨snapshot, draws, position, bytes, before, rfl, hposition, hstored, hbefore, hfollows⟩
  | write hstep hasked =>
      obtain ⟨ticket, heffect⟩ := hstep.effect h.disk Savers.names_apart
      exact ⟨⟨h.session, heffect.sound h.disk Savers.names_apart, fun x hx => h.backed x (hasked hx)⟩,
        List.prefix_refl _⟩
  | restart hbytes hopen =>
      have hlonger := restart_prefix hcodec hsession hbytes hopen
      exact ⟨⟨sound_start hopen, h.disk, fun x hx => (h.backed x hx).longer hlonger⟩, hlonger⟩

theorem Sound.run (hcodec : codec.Inverts) (hcrates : setup.crates.Invert) (h : Sound codec options setup s)
    (hm : ReflTransGen (Move codec options setup) s t) : Sound codec options setup t ∧ s.log <+: t.log := by
  induction hm with
  | refl => exact ⟨h, List.prefix_refl _⟩
  | tail _ hstep ih =>
      obtain ⟨hnext, hlonger⟩ := ih.1.move hcodec hcrates hstep
      exact ⟨hnext, ih.2.trans hlonger⟩

theorem stack_decode_valid (crates : Crates) (seeds : Seeds) (layers : List Layer) (draws : Nat → Draw)
    {bytes : List UInt8} {loaded : ProjectionSnapshot MemoryProjection}
    (h : (stack crates (compactCodec seeds) layers draws).decode bytes = .ok loaded) : Valid loaded.projection := by
  induction layers generalizing bytes with
  | nil =>
      rw [stack, compactCodec] at h
      dsimp only at h
      split at h
      · exact (Routes.decode_confident h).1
      · cases h
  | cons layer inner ih =>
      rw [stack, decode_wrap] at h
      obtain ⟨raw, -, h⟩ := bind_eq_ok.mp h
      exact ih h

theorem Sound.loads (h : Sound codec options setup s) {entries : List String} (hentries : Lists s.disk.files entries)
    (seeds : Seeds) (draws : Nat → Draw) :
    ∃ latest, loadLatest (setup.store seeds draws) s.disk.files entries = .ok latest ∧
      ∀ loaded, latest = some loaded → ∃ before, before <+: s.log ∧ Follows before loaded := by
  have hreadable : ∀ x ∈ s.disk.begun, Readable (setup.store seeds draws) x := by
    intro x hx position hname
    obtain ⟨snapshot, draws', position', bytes, before, hname', hposition, hstored, -, -⟩ := h.backed x hx
    obtain ⟨loaded, hdecode, hsame⟩ := hstored.decodes seeds draws
    have hpositions : position' = position := (finalPath_inj.mp (hname'.symm.trans hname)).2
    exact ⟨bytes, loaded, hstored.items, hstored.limit, hdecode, by rw [hsame.1, hposition, hpositions]⟩
  obtain ⟨latest, hlatest, hserved⟩ := Savers.loadLatest_served h.disk hentries hreadable
  refine ⟨latest, hlatest, ?_⟩
  rintro loaded rfl
  obtain ⟨position, frame, bytes, -, hbegun, hitems, hdecode, -⟩ := hserved
  obtain ⟨snapshot, draws', position', bytes', before, -, -, hstored, hbefore, hfollows⟩ := h.backed _ hbegun
  obtain ⟨loaded', hdecode', hsame⟩ := hstored.decodes seeds draws
  have hbytes : bytes.items = bytes'.items := frameOf_inj.mp (hitems.symm.trans hstored.items)
  rw [hbytes] at hdecode
  obtain rfl : loaded = loaded' := Except.ok.inj (hdecode.symm.trans hdecode')
  exact ⟨before, hbefore, hfollows.loaded hsame (stack_decode_valid setup.crates seeds setup.layers draws hdecode)⟩

/-- However the process has gone on and been stopped, what it finds when it starts again is enough: the journal
opens with every event that the log had, the newest snapshot loads, and resuming it with the rest of the journal
comes to the same memory as replaying the whole of it. -/
theorem restart_agrees (hcodec : codec.Inverts) (hcrates : setup.crates.Invert)
    (hrecovery : options.recovery = .truncatePartialTail) {file g : Files.File} {store : FileEventStore MemoryEvent}
    (hopen : openLog codec options file = .ok store g) (s : Service)
    (hs : ReflTransGen (Move codec options setup) ⟨.start store, .empty⟩ s) (crashed : Files.File)
    (hbytes : crashed.bytes = s.session.store.file.bytes) (hf : Files.Faultless crashed) (entries : List String)
    (hentries : Lists s.disk.files entries) (seeds : Seeds) (draws : Nat → Draw) :
    ∃ reopened g latest, openLog codec options crashed = .ok reopened g ∧ s.log <+: reopened.inner.events ∧
      loadLatest (setup.store seeds draws) s.disk.files entries = .ok latest ∧
      ∀ base, base = latest.getD ⟨.default, .default seeds⟩ → ∀ limit, reopened.inner.events.length ≤ limit →
        (∀ p cursor, replayTracked (memory seeds) reopened.inner.events = .ok (p, cursor) →
          ∃ q, resume (memory seeds) base ((EventStore.file reopened).loadAll base.cursor.globalPosition limit) =
            .ok (q, cursor) ∧ Agree q p) ∧
        ∀ q cursor, resume (memory seeds) base ((EventStore.file reopened).loadAll base.cursor.globalPosition limit) =
            .ok (q, cursor) →
          ∃ p, replayTracked (memory seeds) reopened.inner.events = .ok (p, cursor) ∧ Agree q p := by
  have hstart : Sound codec options setup ⟨.start store, .empty⟩ :=
    ⟨sound_start hopen, Publishing.sound_empty, fun _ hx => absurd hx List.not_mem_nil⟩
  obtain ⟨h, -⟩ := hstart.run hcodec hcrates hs
  obtain ⟨opened, first, committed, later, tail, hsession⟩ := h.session
  obtain ⟨rest, found, hrest, hscan, hl, -⟩ := hsession.scan hcodec
  obtain ⟨reopened, g, hreopened, hinner⟩ :=
    openLog_recovers (hbytes.trans hrest) hscan hl hf (openLog_journaled hopen).1 hrecovery
  have hlonger : s.log <+: reopened.inner.events := restart_prefix hcodec hsession hbytes hreopened
  obtain ⟨latest, hlatest, hloads⟩ := h.loads hentries seeds draws
  refine ⟨reopened, g, latest, hreopened, hlonger, hlatest, fun base hbase limit hlimit => ?_⟩
  obtain ⟨before, hbefore, hfollows⟩ : ∃ before, before <+: s.log ∧ Follows before base := by
    cases latest with
    | none => exact ⟨[], List.nil_prefix, hbase ▸ follows_default seeds⟩
    | some loaded => exact hbase ▸ hloads loaded rfl
  obtain ⟨more, hmore⟩ := hbefore.trans hlonger
  have hall : (EventStore.file reopened).loadAll base.cursor.globalPosition limit = more := by
    have hload : (EventStore.file reopened).loadAll base.cursor.globalPosition limit =
        (found.blocks.flatten.drop before.length).take limit := by
      rw [← hfollows.lawful.2.position, ← loadAll_ofLog hl, ← hinner]
      rfl
    have hevents : reopened.inner.events = found.blocks.flatten := by rw [hinner]; rfl
    rw [hload, ← hevents, ← hmore, List.drop_left]
    refine List.take_of_length_le (Nat.le_trans ?_ hlimit)
    rw [← hmore, List.length_append]
    exact Nat.le_add_left _ _
  have hlawful : Lawful Continues (before ++ more) := by
    rw [hmore, hinner]
    exact hl
  rw [hall, ← hmore]
  refine ⟨fun p cursor hp => ?_, fun q cursor hq => ?_⟩
  · obtain ⟨q, hq, halike⟩ := hfollows.replayed hp seeds
    exact ⟨q, hq, halike.agree⟩
  · obtain ⟨other, p, hp, halike⟩ := hfollows.resumed hlawful hq
    obtain ⟨p', hp', hsame⟩ := @replayTracked_seeds _ _ seeds _ _ hp
    exact ⟨p', hp', (alike_trans halike hsame).agree⟩

theorem run_writes {session : Session MemoryEvent} {disk later : Disk} (hs : Publishing.Sound names disk)
    (h : ReflTransGen (Publishing.Step names) disk later) (hasked : later.begun ⊆ disk.begun) :
    ReflTransGen (Move codec options setup) ⟨session, disk⟩ ⟨session, later⟩ := by
  induction h using ReflTransGen.head_induction_on with
  | refl => exact .refl
  | head hstep hrun ih =>
      obtain ⟨ticket, heffect⟩ := hstep.effect hs Savers.names_apart
      have hnext := heffect.sound hs Savers.names_apart
      have hgrows : _ ⊆ later.begun := Publishing.run_begun hnext Savers.names_apart hrun
      exact (ih hnext (List.Subset.trans hasked heffect.begun)).head (.write hstep (List.Subset.trans hgrows hasked))

def tornOptions : FileStoreOptions := { smallOptions with recovery := .truncatePartialTail }

/-- A snapshot is saved after the first append, and the second stops the process with a part of its frame written. -/
theorem restart_agrees_torn : ∃ (s : Service) (frame : Vec UInt8), s.session.store.file.bytes.length = 65 ∧
    s.disk.files (finalPath "context" 0) = some frame ∧
    ∀ crashed, crashed.bytes = s.session.store.file.bytes → Files.Faultless crashed →
      ∀ entries, Lists s.disk.files entries →
        ∃ reopened g latest, openLog retractedCodec tornOptions crashed = .ok reopened g ∧
          s.log <+: reopened.inner.events ∧
          loadLatest (encryptedSetup.store ⟨3, 4⟩ (drawOf 2)) s.disk.files entries = .ok latest := by
  have hcrates : encryptedSetup.crates.Invert := ⟨literalBlock_inverts, Codecs.Encryption.cipher_inverts⟩
  have hconfident : ∀ fact ∈ firstSnapshot.projection.facts, fact.confidence.basisPoints ≤ 10000 := by decide +kernel
  have hrun : (match openLog retractedCodec tornOptions fullDisk with
    | .ok store _ =>
        decide ((firstAppend store).stopped = false ∧ (firstAppend store).store.inner.events.take 1 = [firstEvent] ∧
        (secondAppend store).store.file.bytes.length = 65)
    | .error _ _ => false) = true := by decide +kernel
  cases ho : openLog retractedCodec tornOptions fullDisk with
  | error e g =>
      rw [ho] at hrun
      cases hrun
  | ok store g =>
      rw [ho] at hrun
      obtain ⟨hgoing, hfirst, hlength⟩ := of_decide_eq_true hrun
      have hbefore : [firstEvent] <+: (firstAppend store).store.inner.events := hfirst ▸ List.take_prefix 1 _
      obtain ⟨frame, bytes, hstored⟩ := stored_of_proper hcrates (proper_firstSnapshot 1) hconfident
      let final : String := finalPath "context" 0
      let asked : Disk := Publishing.Disk.empty.ask (final, frame)
      have hsaved : Move retractedCodec tornOptions encryptedSetup ⟨firstAppend store, .empty⟩
          ⟨firstAppend store, asked.enter ⟨1, 0⟩ ⟨final, frame, .looking⟩ .looking⟩ :=
        .save hbefore (follows_replayed replayTracked_firstEvent) (proper_firstSnapshot 1) hconfident rfl
          (hstored.framed ⟨0, 0⟩) rfl
      have hbegun : Publishing.Step names .empty (asked.enter ⟨1, 0⟩ ⟨final, frame, .looking⟩ .looking) :=
        .begin rfl (Savers.final_finalPath "context" 0)
      obtain ⟨ticket, heffect⟩ := hbegun.effect Publishing.sound_empty Savers.names_apart
      have hpublished := Publishing.run_published Savers.names_apart asked ⟨1, 0⟩ frame rfl
        (Savers.final_finalPath "context" 0) rfl
      have hwritten : ReflTransGen (Move retractedCodec tornOptions encryptedSetup) ⟨firstAppend store, _⟩ _ :=
        run_writes (heffect.sound Publishing.sound_empty Savers.names_apart) hpublished (List.Subset.refl _)
      have hfirstly :
          Move retractedCodec tornOptions encryptedSetup ⟨.start store, .empty⟩ ⟨firstAppend store, .empty⟩ :=
        .append (.append .borrowed Common.stream .noStream _ rfl)
      let published : Disk := (asked.put final (some frame)).acknowledge (final, frame)
      have hlastly : Move retractedCodec tornOptions encryptedSetup ⟨firstAppend store, published⟩
          ⟨secondAppend store, published⟩ := .append (.append .receipt Common.stream .any _ hgoing)
      have hs := (((ReflTransGen.single hfirstly).tail hsaved).trans hwritten).tail hlastly
      have hfile : published.files final = some frame := by
        change Function.update asked.files final (some frame) final = some frame
        exact Function.update_self _ _ _
      refine ⟨⟨secondAppend store, published⟩, frame, hlength, hfile, fun crashed hcrashed hf entries hentries => ?_⟩
      obtain ⟨reopened, g, latest, hreopened, hlonger, hlatest, -⟩ := restart_agrees
        (tableCodec_inverts Common.retractedOnce) hcrates rfl ho _ hs crashed hcrashed hf entries hentries
        ⟨3, 4⟩ (drawOf 2)
      exact ⟨reopened, g, latest, hreopened, hlonger, hlatest⟩

end WeavatrixMemory.Snapshot.Restart
