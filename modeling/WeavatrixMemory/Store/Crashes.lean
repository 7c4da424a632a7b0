import WeavatrixMemory.Store.Faults

namespace WeavatrixMemory.Store.Crashes

open Error Identity Domain Outcome Files Blocks Logs Store.Frame Framing Scan File InMemory EventLog Commit Faults
  Relation

variable {E : Type} {codec : Codec (StoredEvent E)} {options : FileStoreOptions}

/-- A store whose file has the frames of its batches, and possibly a tail behind them. -/
structure Journaled (codec : Codec (StoredEvent E)) (options : FileStoreOptions) (store : FileEventStore E)
    (batches : List (List (StoredEvent E))) (frames : List (List UInt8)) (tail : List UInt8) : Prop where
  sameCodec : store.codec = codec
  sameOptions : store.options = options
  log : Lawful Continues batches.flatten
  inner : store.inner = ofLog batches.flatten
  framed : List.Forall₂ (Frames codec options.maxFrameBytes) frames batches
  bytes : store.file.bytes = fileHeader ++ frames.flatten ++ tail
  durable : store.durableLen.toNat = (fileHeader ++ frames.flatten).length

theorem Restored.journaled {store : FileEventStore E} {bytes : List UInt8} {durableLen : UInt64} {g : Files.File}
    {batches : List (List (StoredEvent E))} {frames : List (List UInt8)}
    (h : Restored codec options batches.flatten durableLen bytes store g)
    (hframes : List.Forall₂ (Frames codec options.maxFrameBytes) frames batches)
    (hbytes : bytes = fileHeader ++ frames.flatten)
    (hdurable : durableLen.toNat = (fileHeader ++ frames.flatten).length) :
    Journaled codec options store batches frames [] := by
  obtain ⟨hl, hinner⟩ := restore_eq_ok.mp h.inner
  refine ⟨h.codec, h.options, hl, hinner, hframes, ?_, ?_⟩
  · rw [h.file, h.bytes, hbytes, List.append_nil]
  · rw [h.durableLen, hdurable]

theorem openScanned_scan {file g : Files.File} {outcome : ScanOutcome E}
    (h : openScanned codec options file = .ok outcome g) :
    4 ≤ options.maxFrameBytes ∧ ∃ f, scan codec options.maxFrameBytes f = .ok outcome g := by
  rw [openScanned] at h
  obtain ⟨_, _, hmax, h⟩ := bind_apply_eq_ok.mp h
  obtain ⟨_, _, -, h⟩ := bind_apply_eq_ok.mp h
  obtain ⟨_, _, -, h⟩ := bind_apply_eq_ok.mp h
  obtain ⟨_, _, -, h⟩ := bind_apply_eq_ok.mp h
  obtain ⟨length, _, -, h⟩ := bind_apply_eq_ok.mp h
  refine ⟨not_lt.mp (throwIf_eq_ok.mp (lift_apply_eq_ok.mp hmax).1), ?_⟩
  split at h
  · obtain ⟨_, _, -, h⟩ := bind_apply_eq_ok.mp h
    obtain ⟨_, f, -, h⟩ := bind_apply_eq_ok.mp h
    exact ⟨f, h⟩
  · exact ⟨_, h⟩

theorem scan_frames {file g : Files.File} {outcome : ScanOutcome E}
    (h : scan codec options.maxFrameBytes file = .ok outcome g) :
    ∃ s frames tail, outcome = outcomeOf [] s ∧ List.Forall₂ (Frames codec options.maxFrameBytes) frames s.blocks ∧
      g.bytes = fileHeader ++ frames.flatten ++ tail ∧ (s.complete = true → tail = []) ∧
      (UInt64.ofNat s.durable).toNat = (fileHeader ++ frames.flatten).length := by
  obtain ⟨hs, rest, s, hrest, houtcome, hscan⟩ := (scan_ends codec options.maxFrameBytes file).of_ok h
  obtain ⟨frames, tail, rfl, hframes, hdurable, hcomplete⟩ :=
    scan_ok (readFrame_framing codec options.maxFrameBytes) hscan
  have hbytes : g.bytes = fileHeader ++ frames.flatten ++ tail := by
    rw [hs.bytes, hrest, List.append_assoc]
  have hfits := g.fits
  refine ⟨s, frames, tail, houtcome, hframes, hbytes, hcomplete.mp, ?_⟩
  rw [hbytes, List.length_append, List.length_append] at hfits
  have hsmall : fileHeader.length + frames.flatten.length < 2 ^ 63 := by omega
  rw [hdurable, List.length_append, UInt64.toNat_ofNat_of_lt' (hsmall.trans (by decide))]

theorem openLog_journaled {file g : Files.File} {store : FileEventStore E}
    (h : openLog codec options file = .ok store g) :
    4 ≤ options.maxFrameBytes ∧ ∃ batches frames, Journaled codec options store batches frames [] := by
  rw [openLog] at h
  obtain ⟨outcome, f, hscanned, h⟩ := bind_apply_eq_ok.mp h
  obtain ⟨hmax, file', hscan⟩ := openScanned_scan hscanned
  obtain ⟨s, frames, tail, rfl, hframes, hbytes, hcomplete, hdurable⟩ := scan_frames hscan
  refine ⟨hmax, s.blocks, frames, ?_⟩
  rw [outcomeOf, List.nil_append] at h
  by_cases hc : s.complete = true
  · rw [if_pos hc] at h
    change openRecovered codec options s.blocks.flatten _ false f = _ at h
    rw [openRecovered_complete] at h
    rw [hcomplete hc, List.append_nil] at hbytes
    exact Restored.journaled ((openStore_ends codec options _ _ f).of_ok h) hframes hbytes hdurable
  · rw [if_neg hc] at h
    change openRecovered codec options s.blocks.flatten _ true f = _ at h
    have hle : (UInt64.ofNat s.durable).toNat ≤ f.bytes.length := by
      rw [hdurable, hbytes, @List.length_append _ _ tail]
      exact Nat.le_add_right _ _
    have hrestored := (openRecovered_partial_ends codec options s.blocks.flatten hle).of_ok h
    rw [hdurable, hbytes, List.take_left] at hrestored
    exact Restored.journaled hrestored hframes rfl hdurable

theorem openLog_recovers {rest : List UInt8} {s : Scanned (List (StoredEvent E))} {file : Files.File}
    (hbytes : file.bytes = fileHeader ++ rest)
    (hscan : Blocks.Scan (readFrame codec options.maxFrameBytes) fileHeader.length rest (.ok s))
    (hl : Lawful Continues s.blocks.flatten) (hf : Faultless file) (hmax : 4 ≤ options.maxFrameBytes)
    (hrecovery : options.recovery = .truncatePartialTail) :
    ∃ store g, openLog codec options file = .ok store g ∧ store.inner = ofLog s.blocks.flatten := by
  have hrestore := restore_eq_ok.mpr ⟨hl, rfl⟩
  have hne : file.bytes ≠ [] := by
    rw [hbytes]
    exact List.append_ne_nil_of_left_ne_nil (by decide) _
  obtain ⟨f, hsame, hopen⟩ | ⟨e, f, -, -, -, hrefused⟩ := openScanned_reaches codec options hne
  · have hends := scan_of_faultless (hsame.faultless hf) (hsame.bytes.trans hbytes) hscan
    cases hr : scan codec options.maxFrameBytes f with
    | error e g => cases (hends.of_error hr).2
    | ok outcome g =>
        obtain ⟨hg, s', hs, rfl⟩ := hends.of_ok hr
        cases hs
        have hgf := hg.faultless (hsame.faultless hf)
        have hgbytes := hg.bytes.trans (hsame.bytes.trans hbytes)
        rw [openLog, bind_apply, hopen, hr, outcomeOf, List.nil_append]
        by_cases hc : s.complete = true
        · rw [if_pos hc]
          change ∃ store h, openRecovered codec options s.blocks.flatten _ false g = .ok store h ∧ _
          rw [openRecovered_complete]
          have hstore := openStore_ends codec options s.blocks.flatten (UInt64.ofNat s.durable) g
          cases ho : openStore codec options s.blocks.flatten (UInt64.ofNat s.durable) g with
          | ok store h => exact ⟨store, h, rfl, (restore_eq_ok.mp (hstore.of_ok ho).inner).2⟩
          | error e h =>
              rw [(hstore.of_error ho).2 hgf] at hrestore
              cases hrestore
        · rw [if_neg hc]
          change ∃ store h, openRecovered codec options s.blocks.flatten _ true g = .ok store h ∧ _
          have hdurable := scan_durable_le (readFrame_framing codec options.maxFrameBytes) hscan
          have hfits := g.fits
          rw [hgbytes, List.length_append] at hfits
          have hle : (UInt64.ofNat s.durable).toNat ≤ g.bytes.length := by
            rw [hgbytes, List.length_append, UInt64.toNat_ofNat_of_lt' ((hdurable.trans_lt hfits).trans (by decide))]
            exact hdurable
          have hstore := openRecovered_partial_ends codec options s.blocks.flatten hle
          cases ho : openRecovered codec options s.blocks.flatten (UInt64.ofNat s.durable) true g with
          | ok store h => exact ⟨store, h, rfl, (restore_eq_ok.mp (hstore.of_ok ho).inner).2⟩
          | error e h =>
              rw [(hstore.of_error ho hgf hrecovery).2] at hrestore
              cases hrestore
  · exact absurd (hrefused hf) hmax.not_gt

/-- A process that has the log open: the batches whose append returned `Ok`, and those whose append
was cut off, or was not rolled back. -/
structure Session (E : Type) where
  store : FileEventStore E
  acknowledged : List (StreamId × List (NewEvent E))
  pending : List (StreamId × List (NewEvent E))
  stopped : Bool

def Session.start (store : FileEventStore E) : Session E := ⟨store, [], [], false⟩

def Session.attempt (path : Clients.AppendPath) (stream : StreamId) (expected : ExpectedVersion)
    (batch : List (NewEvent E)) (s : Session E) : Session E :=
  match appendBy stream expected batch path s.store with
  | .ok _ store => { s with store := store, acknowledged := s.acknowledged ++ [(stream, batch)] }
  | .error e store =>
      { s with
        store := store
        pending := if unrestored e then s.pending ++ [(stream, batch)] else s.pending
        stopped := e = .stopped }

inductive Step : Session E → Session E → Prop
  | append {s : Session E} (path : Clients.AppendPath) (stream : StreamId) (expected : ExpectedVersion)
      (batch : List (NewEvent E)) (h : s.stopped = false) : Step s (s.attempt path stream expected batch)

def Carries (committed : List (StoredEvent E)) (p : StreamId × List (NewEvent E)) : Prop :=
  committed.map proposal = p.2 ∧ ∀ event ∈ committed, event.metadata.streamId = p.1

/-- An empty batch leaves no frame. -/
def written (committed : List (List (StoredEvent E))) : List (List (StoredEvent E)) :=
  committed.filter fun batch => !batch.isEmpty

def Torn (codec : Codec (StoredEvent E)) (options : FileStoreOptions) (log : List (StoredEvent E))
    (pending : List (StreamId × List (NewEvent E))) (tail : List UInt8) : Prop :=
  ∃ p ∈ pending, ∃ further frame, Carries further p ∧ Lawful Continues (log ++ further) ∧
    encodeBatch further codec options.maxFrameBytes = .ok frame ∧ tail <+: frame.items

/-- The invariant of a session, over the frames and batches that it has found in the file. -/
structure Sound (codec : Codec (StoredEvent E)) (options : FileStoreOptions) (opened : List (List (StoredEvent E)))
    (first : List (List UInt8)) (s : Session E) (committed : List (List (StoredEvent E))) (later : List (Vec UInt8))
    (tail : List UInt8) : Prop where
  journaled : Journaled codec options s.store (opened ++ written committed) (first ++ later.map (·.items)) tail
  acknowledged : List.Forall₂ Carries committed s.acknowledged
  encoded : Written codec options.maxFrameBytes (written committed) later
  tail : tail = [] ∨ Torn codec options (opened ++ committed).flatten s.pending tail

theorem flatten_written (committed : List (List (StoredEvent E))) : (written committed).flatten = committed.flatten :=
  List.flatten_filter_not_isEmpty

theorem Torn.of_subset {log : List (StoredEvent E)} {pending pending' : List (StreamId × List (NewEvent E))}
    {tail : List UInt8} (h : Torn codec options log pending tail) (hs : pending ⊆ pending') :
    Torn codec options log pending' tail := by
  obtain ⟨p, hp, hfurther⟩ := h
  exact ⟨p, hs hp, hfurther⟩

variable {opened : List (List (StoredEvent E))} {first : List (List UInt8)} {s t : Session E}
  {committed : List (List (StoredEvent E))} {later : List (Vec UInt8)} {tail : List UInt8}

theorem Sound.inner (h : Sound codec options opened first s committed later tail) :
    s.store.inner = ofLog (opened ++ committed).flatten ∧ Lawful Continues (opened ++ committed).flatten := by
  have hflatten : (opened ++ written committed).flatten = (opened ++ committed).flatten := by
    rw [List.flatten_append, List.flatten_append, flatten_written]
  rw [← hflatten]
  exact ⟨h.journaled.inner, h.journaled.log⟩

theorem Sound.length (h : Sound codec options opened first s committed later tail) :
    s.store.file.bytes.length = s.store.durableLen.toNat ↔ tail = [] := by
  rw [h.journaled.bytes, h.journaled.durable, List.length_append, ← List.length_eq_zero_iff]
  omega

theorem Journaled.extend {store : FileEventStore E} {batches : List (List (StoredEvent E))}
    {frames : List (List UInt8)} (h : Journaled codec options store batches frames []) {last : List (StoredEvent E)}
    {frame : List UInt8} (hframe : Frames codec options.maxFrameBytes frame last)
    (hlast : Grows Continues batches.flatten last) {file : Files.File} {durableLen : UInt64}
    (hbytes : file.bytes = store.file.bytes ++ frame) (hdurable : durableLen.toNat = file.bytes.length) :
    Journaled codec options
      { store with file := file, durableLen := durableLen, inner := ofLog (batches.flatten ++ last) }
      (batches ++ [last]) (frames ++ [frame]) [] := by
  have hflatten : (batches ++ [last]).flatten = batches.flatten ++ last := by
    rw [List.flatten_append, List.flatten_singleton]
  have hfile : file.bytes = fileHeader ++ (frames ++ [frame]).flatten := by
    rw [hbytes, h.bytes, List.append_nil, List.flatten_append, List.flatten_singleton, List.append_assoc]
  refine ⟨h.sameCodec, h.sameOptions, ?_, ?_, List.rel_append h.framed (.cons hframe .nil), ?_, ?_⟩
  · rw [hflatten]
    exact lawful_append.mpr ⟨h.log, hlast⟩
  · rw [hflatten]
  · rw [List.append_nil]
    exact hfile
  · rw [← hfile]
    exact hdurable

theorem Journaled.onTail {store : FileEventStore E} {batches : List (List (StoredEvent E))}
    {frames : List (List UInt8)} (h : Journaled codec options store batches frames tail) {file : Files.File}
    {part : List UInt8} (hbytes : file.bytes = store.file.bytes ++ part) :
    Journaled codec options { store with file := file } batches frames (tail ++ part) := by
  refine ⟨h.sameCodec, h.sameOptions, h.log, h.inner, h.framed, ?_, h.durable⟩
  rw [hbytes, h.bytes, List.append_assoc]

theorem written_snoc (committed : List (List (StoredEvent E))) {last : List (StoredEvent E)} (h : last ≠ []) :
    written (committed ++ [last]) = written committed ++ [last] := by
  have hlast : (!last.isEmpty) = true := by simpa using h
  have hone := @List.filter_cons_of_pos _ (fun batch : List (StoredEvent E) => !batch.isEmpty) last [] hlast
  rw [written, List.filter_append, hone]
  rfl

theorem written_snoc_nil (committed : List (List (StoredEvent E))) :
    written (committed ++ [[]]) = written committed := by
  rw [written, List.filter_append]
  exact List.append_nil _

theorem Sound.step (hcodec : codec.Inverts) (h : Sound codec options opened first s committed later tail)
    (hs : Step s t) :
    ∃ committed later tail, Sound codec options opened first t committed later tail := by
  obtain ⟨hinner, hl⟩ := h.inner
  have hlength := h.length
  have hj := h.journaled
  have hflatten : (opened ++ written committed).flatten = (opened ++ committed).flatten := by
    rw [List.flatten_append, List.flatten_append, flatten_written]
  obtain ⟨path, stream, expected, batch, -⟩ := hs
  have hends := appendBy_ends hl hinner stream expected batch path
  rw [Session.attempt]
  cases hr : appendBy stream expected batch path s.store with
  | ok _ store =>
      obtain ⟨last, u, hlast, hpersisted, rfl⟩ := hends.of_ok hr
      have hcarries : Carries last (stream, batch) := ⟨hlast.proposed, hlast.stream⟩
      have hacknowledged : List.Forall₂ Carries (committed ++ [last]) (s.acknowledged ++ [(stream, batch)]) :=
        List.rel_append h.acknowledged (.cons hcarries .nil)
      have hlog : (opened ++ (committed ++ [last])).flatten = (opened ++ committed).flatten ++ last := by
        rw [← List.append_assoc, List.flatten_append, List.flatten_singleton]
      cases hpersisted with
      | empty hempty =>
          subst hempty
          rw [List.append_nil, ← hinner]
          refine ⟨committed ++ [[]], later, tail, ?_, hacknowledged, ?_, ?_⟩
          · rw [written_snoc_nil]
            exact hj
          · rw [written_snoc_nil]
            exact h.encoded
          · rw [hlog, List.append_nil]
            exact h.tail
      | @written frame file durableLen hne hframe hend hbytes hdurable =>
          obtain rfl := hlength.mp hend
          rw [hj.sameCodec, hj.sameOptions] at hframe
          have hgrows := hlast.grows
          rw [← hflatten] at hgrows ⊢
          have hextended := hj.extend (frames_of_encodeBatch hcodec hframe) hgrows hbytes hdurable
          refine ⟨committed ++ [last], later ++ [frame], [], ?_, hacknowledged, ?_, .inl rfl⟩
          · rw [written_snoc _ hne, List.map_append, List.map_singleton, ← List.append_assoc, ← List.append_assoc]
            exact hextended
          · rw [written_snoc _ hne]
            exact List.rel_append h.encoded (.cons hframe .nil)
  | error e store =>
      obtain ⟨g, rfl, hg⟩ := hends.of_error hr
      have hsubset : s.pending ⊆ if unrestored e then s.pending ++ [(stream, batch)] else s.pending := by
        split
        · exact List.subset_append_left _ _
        · exact List.Subset.refl _
      have hsame : g.bytes = s.store.file.bytes → ∃ committed later tail, Sound codec options opened first
          { s with
            store := { s.store with file := g }
            pending := if unrestored e then s.pending ++ [(stream, batch)] else s.pending
            stopped := e = .stopped } committed later tail := by
        intro hg
        have hfile := hj.onTail (hg.trans (List.append_nil _).symm)
        rw [List.append_nil] at hfile
        exact ⟨committed, later, tail, hfile, h.acknowledged, h.encoded, h.tail.imp id (·.of_subset hsubset)⟩
      obtain hg | ⟨further, hfurther, hg | ⟨hunrestored, frame, part, hframe, hpart, hend, hg⟩⟩ := hg
      · exact hsame hg
      · exact hsame hg
      · obtain rfl := hlength.mp hend
        rw [hj.sameCodec, hj.sameOptions] at hframe
        have hfile := hj.onTail hg
        refine ⟨committed, later, part, hfile, h.acknowledged, h.encoded, .inr ?_⟩
        change Torn codec options _ (if unrestored e then s.pending ++ [(stream, batch)] else s.pending) part
        rw [if_pos hunrestored]
        exact ⟨(stream, batch), List.mem_append_right _ (List.mem_singleton_self _), further, frame,
          ⟨hfurther.proposed, hfurther.stream⟩, lawful_append.mpr ⟨hl, hfurther.grows⟩, hframe, hpart⟩

theorem Sound.run (hcodec : codec.Inverts) (h : Sound codec options opened first s committed later tail)
    (hs : ReflTransGen Step s t) :
    ∃ committed later tail, Sound codec options opened first t committed later tail := by
  induction hs with
  | refl => exact ⟨committed, later, tail, h⟩
  | tail _ hstep ih =>
      obtain ⟨committed, later, tail, h⟩ := ih
      exact h.step hcodec hstep

/-- With a tail that is not durable, no append writes. -/
theorem Sound.step_blocked (h : Sound codec options opened first s committed later tail) (hs : Step s t)
    (htail : s.store.file.bytes.length ≠ s.store.durableLen.toNat) :
    t.store.file.bytes = s.store.file.bytes ∧ t.store.durableLen = s.store.durableLen := by
  obtain ⟨hinner, hl⟩ := h.inner
  obtain ⟨path, stream, expected, batch, -⟩ := hs
  have hends := appendBy_ends hl hinner stream expected batch path
  rw [Session.attempt]
  cases hr : appendBy stream expected batch path s.store with
  | ok _ store =>
      obtain ⟨last, u, -, hpersisted, rfl⟩ := hends.of_ok hr
      cases hpersisted with
      | empty => exact ⟨rfl, rfl⟩
      | written _ _ hend => exact absurd hend htail
  | error e store =>
      obtain ⟨g, rfl, hg⟩ := hends.of_error hr
      obtain hg | ⟨_, _, hg | ⟨-, _, _, -, -, hend, -⟩⟩ := hg
      · exact ⟨hg, rfl⟩
      · exact ⟨hg, rfl⟩
      · exact absurd hend htail

theorem Sound.run_blocked (hcodec : codec.Inverts) (h : Sound codec options opened first s committed later tail)
    (hs : ReflTransGen Step s t) (htail : s.store.file.bytes.length ≠ s.store.durableLen.toNat) :
    t.store.file.bytes = s.store.file.bytes ∧ t.store.durableLen = s.store.durableLen := by
  induction hs with
  | refl => exact ⟨rfl, rfl⟩
  | tail hrun hstep ih =>
      obtain ⟨_, _, _, hbefore⟩ := h.run hcodec hrun
      obtain ⟨hbytes, hdurable⟩ := ih
      rw [← hbytes, ← hdurable] at htail ⊢
      exact hbefore.step_blocked hstep htail

theorem Sound.failed (h : Sound codec options opened first s committed later tail) (path : Clients.AppendPath)
    (stream : StreamId) (expected : ExpectedVersion) (batch : List (NewEvent E)) {e : MemoryError}
    {store : FileEventStore E} (he : appendBy stream expected batch path s.store = .error e store) :
    store.inner = s.store.inner ∧ store.durableLen = s.store.durableLen ∧
      (unrestored e = false → store.file.bytes = s.store.file.bytes) := by
  obtain ⟨hinner, hl⟩ := h.inner
  obtain ⟨g, rfl, hg⟩ := (appendBy_ends hl hinner stream expected batch path).of_error he
  refine ⟨rfl, rfl, fun hrestored => ?_⟩
  obtain hg | ⟨_, _, hg | ⟨hunrestored, -⟩⟩ := hg
  · exact hg
  · exact hg
  · rw [hrestored] at hunrestored
    cases hunrestored

theorem Sound.scan (hcodec : codec.Inverts) (h : Sound codec options opened first s committed later tail) :
    ∃ rest found, s.store.file.bytes = fileHeader ++ rest ∧
      Blocks.Scan (readFrame codec options.maxFrameBytes) fileHeader.length rest (.ok found) ∧
      Lawful Continues found.blocks.flatten ∧ (found.blocks.flatten = (opened ++ committed).flatten ∨
        ∃ p ∈ s.pending, ∃ further, Carries further p ∧
          found.blocks.flatten = (opened ++ committed).flatten ++ further) := by
  have hj := h.journaled
  have hframing := readFrame_framing codec options.maxFrameBytes
  obtain ⟨-, hl⟩ := h.inner
  have hflatten : (opened ++ written committed).flatten = (opened ++ committed).flatten := by
    rw [List.flatten_append, List.flatten_append, flatten_written]
  have hbytes : s.store.file.bytes = fileHeader ++ ((first ++ later.map (·.items)).flatten ++ tail) := by
    rw [hj.bytes, List.append_assoc]
  have hsame (part : List UInt8) (hscan : ∃ complete, Blocks.Scan (readFrame codec options.maxFrameBytes)
      (fileHeader.length + (first ++ later.map (·.items)).flatten.length) part
      (.ok ⟨[], fileHeader.length + (first ++ later.map (·.items)).flatten.length, complete⟩)) :
      ∃ found, Blocks.Scan (readFrame codec options.maxFrameBytes) fileHeader.length
        ((first ++ later.map (·.items)).flatten ++ part) (.ok found) ∧
        found.blocks.flatten = (opened ++ committed).flatten := by
    obtain ⟨complete, hscan⟩ := hscan
    refine ⟨_, scan_blocks hframing hj.framed hscan, ?_⟩
    change ((opened ++ written committed) ++ []).flatten = _
    rw [List.append_nil, hflatten]
  have hnothing (offset : Nat) := @Scan.complete _ _ _ (readFrame codec options.maxFrameBytes) offset []
    (hframing.complete.mpr rfl)
  refine ⟨(first ++ later.map (·.items)).flatten ++ tail, ?_⟩
  obtain rfl | ⟨p, hp, further, frame, hcarries, hfurther, hframe, hpart⟩ := h.tail
  · obtain ⟨found, hfound, hblocks⟩ := hsame [] ⟨true, hnothing _⟩
    exact ⟨found, hbytes, hfound, hblocks ▸ hl, .inl hblocks⟩
  · have hblock := frames_of_encodeBatch hcodec hframe
    by_cases hwhole : tail = frame.items
    · have hlast := scan_block hframing hblock
        (hnothing (fileHeader.length + (first ++ later.map (·.items)).flatten.length + frame.items.length))
      rw [List.append_nil, ← hwhole] at hlast
      have hscan := scan_blocks hframing hj.framed hlast
      have hlog : ((opened ++ written committed) ++ ([further] ++ [])).flatten =
          (opened ++ committed).flatten ++ further := by
        rw [List.append_nil, List.flatten_append, hflatten, List.flatten_singleton]
      exact ⟨_, hbytes, hscan, hlog ▸ hfurther, .inr ⟨p, hp, further, hcarries, hlog⟩⟩
    · obtain ⟨found, hfound, hblocks⟩ := hsame tail ⟨_, scan_part hframing hblock hpart hwhole _⟩
      exact ⟨found, hbytes, hfound, hblocks ▸ hl, .inl hblocks⟩

/-- Whatever fails and whenever the process stops, the file has the batches of the log in memory, and
reopened it gives the batches whose append returned `Ok`, with at most one more. -/
theorem append_survives (hcodec : codec.Inverts) {file g : Files.File} {store : FileEventStore E}
    (h : openLog codec options file = .ok store g) :
    ∃ opened first, List.Forall₂ (Frames codec options.maxFrameBytes) first opened ∧
      store.inner = ofLog opened.flatten ∧ store.file.bytes = fileHeader ++ first.flatten ∧
      ∀ s, ReflTransGen Step (.start store) s → ∃ committed,
        List.Forall₂ Carries committed s.acknowledged ∧ s.store.inner = ofLog (opened ++ committed).flatten ∧
        (∃ later, Written codec options.maxFrameBytes (written committed) later ∧
          s.store.file.bytes.take s.store.durableLen.toNat =
            fileHeader ++ (first ++ later.map (·.items)).flatten) ∧
        (∀ path stream expected batch e t, appendBy stream expected batch path s.store = .error e t →
          t.inner = s.store.inner ∧ t.durableLen = s.store.durableLen ∧
            (unrestored e = false → t.file.bytes = s.store.file.bytes)) ∧
        (s.store.file.bytes.length ≠ s.store.durableLen.toNat →
          ∀ t, ReflTransGen Step s t → t.store.file.bytes = s.store.file.bytes) ∧
        ∀ crashed, crashed.bytes = s.store.file.bytes → Faultless crashed →
          ∃ reopened g, openLog codec { options with recovery := .truncatePartialTail } crashed = .ok reopened g ∧
            (reopened.inner = ofLog (opened ++ committed).flatten ∨ ∃ p ∈ s.pending, ∃ further,
              Carries further p ∧ reopened.inner = ofLog ((opened ++ committed).flatten ++ further)) := by
  obtain ⟨hmax, opened, first, hopened⟩ := openLog_journaled h
  have hbytes := hopened.bytes
  rw [List.append_nil] at hbytes
  refine ⟨opened, first, hopened.framed, hopened.inner, hbytes, fun s hrun => ?_⟩
  have hstart : Sound codec options opened first (.start store) [] [] [] := by
    refine ⟨?_, .nil, .nil, .inl rfl⟩
    have hnone : opened ++ written [] = opened ∧ first ++ ([] : List (Vec UInt8)).map (·.items) = first :=
      ⟨List.append_nil opened, List.append_nil first⟩
    rw [hnone.1, hnone.2]
    exact hopened
  obtain ⟨committed, later, tail, hs⟩ := hstart.run hcodec hrun
  refine ⟨committed, hs.acknowledged, hs.inner.1, ⟨later, hs.encoded, ?_⟩, fun path stream expected batch e t he => ?_,
    fun htail t ht => (hs.run_blocked hcodec ht htail).1, fun crashed hcrashed hf => ?_⟩
  · rw [hs.journaled.durable, hs.journaled.bytes, List.take_left]
  · exact hs.failed path stream expected batch he
  · obtain ⟨rest, found, hrest, hscan, hl, hfound⟩ := hs.scan hcodec
    obtain ⟨reopened, g, hopen, hinner⟩ := @openLog_recovers _ codec { options with recovery := .truncatePartialTail }
      rest found crashed (hcrashed.trans hrest) hscan hl hf hmax rfl
    refine ⟨reopened, g, hopen, ?_⟩
    rw [hinner]
    refine hfound.imp (congrArg ofLog) fun hfurther => ?_
    obtain ⟨p, hp, further, hcarries, hblocks⟩ := hfurther
    exact ⟨p, hp, further, hcarries, congrArg ofLog hblocks⟩

/-- A new file on which the second append fails, and its rollback too. -/
def fullDisk : Files.File where
  bytes := []
  fits := by decide
  position := 0
  locked := false
  fates n := if n = 15 ∨ n = 16 then ⟨10, .failed "no space left on device"⟩ else ⟨100, .done⟩

def smallOptions : FileStoreOptions := ⟨.strict, .syncAll, 64⟩

def firstAppend (store : FileEventStore MemoryEvent) : Session MemoryEvent :=
  (Session.start store).attempt .borrowed Common.stream .noStream ((Common.retractedOnce.take 3).map proposal)

def secondAppend (store : FileEventStore MemoryEvent) : Session MemoryEvent :=
  (firstAppend store).attempt .receipt Common.stream .any ((Common.retractedOnce.drop 3).map proposal)

theorem append_survives_full_disk :
    ∃ store g, openLog retractedCodec smallOptions fullDisk = .ok store g ∧
      (secondAppend store).acknowledged.length = 1 ∧ (secondAppend store).pending.length = 1 ∧
      (secondAppend store).store.durableLen = 55 ∧ (secondAppend store).store.file.bytes.length = 65 ∧
      ∀ crashed, crashed.bytes = (secondAppend store).store.file.bytes → Faultless crashed →
        ∃ reopened g, openLog retractedCodec { smallOptions with recovery := .truncatePartialTail } crashed =
          .ok reopened g := by
  have hrun : (match openLog retractedCodec smallOptions fullDisk with
    | .ok store _ => decide ((firstAppend store).stopped = false ∧ (secondAppend store).acknowledged.length = 1 ∧
        (secondAppend store).pending.length = 1 ∧ (secondAppend store).store.durableLen = 55 ∧
        (secondAppend store).store.file.bytes.length = 65)
    | .error _ _ => false) = true := by decide +kernel
  cases ho : openLog retractedCodec smallOptions fullDisk with
  | error e g =>
      rw [ho] at hrun
      cases hrun
  | ok store g =>
      rw [ho] at hrun
      obtain ⟨hgoing, hacknowledged, hpending, hdurable, hlength⟩ := of_decide_eq_true hrun
      refine ⟨store, g, rfl, hacknowledged, hpending, hdurable, hlength, fun crashed hcrashed hf => ?_⟩
      obtain ⟨opened, first, -, -, -, h⟩ := append_survives (tableCodec_inverts Common.retractedOnce) ho
      have hsteps : ReflTransGen Step (.start store) (secondAppend store) :=
        (ReflTransGen.single (Step.append .borrowed Common.stream .noStream _ rfl)).tail
          (Step.append .receipt Common.stream .any _ hgoing)
      obtain ⟨_, -, -, -, -, -, hcrashes⟩ := h _ hsteps
      obtain ⟨reopened, t, hreopened, -⟩ := hcrashes crashed hcrashed hf
      exact ⟨reopened, t, hreopened⟩

end WeavatrixMemory.Store.Crashes
