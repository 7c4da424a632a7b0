import WeavatrixMemory.Library.Files
import WeavatrixMemory.Common
import WeavatrixMemory.Store.Framing

namespace WeavatrixMemory.Store.Scan

open Error Identity Domain Words Outcome Files Blocks Store.Frame Framing

variable {E α β : Type}

def io (operation : String) (call : FileM α) : Update File α := fun file =>
  match call file with
  | .ok a g => .ok a g
  | .error (.failed message) g => .error (.io operation message) g
  | .error .stopped g => .error .stopped g

inductive ReadState
  | complete
  | incomplete
  | eof

/-- The loop of `read_or_partial`. Every round reads at least one byte, so that the rounds suffice. -/
def readLoop (length : Nat) : Nat → List UInt8 → FileM (ReadState × List UInt8)
  | 0, output => pure (.complete, output)
  | rounds + 1, output =>
      if output.length < length then do
        let chunk ← read (length - output.length)
        if chunk.isEmpty then pure (if output.isEmpty then .eof else .incomplete, output)
        else readLoop length rounds (output ++ chunk)
      else pure (.complete, output)

def readOrPartial (length : Nat) : FileM (ReadState × List UInt8) := readLoop length length []

def readExact (length : Nat) : FileM (List UInt8) := do
  let (state, output) ← readOrPartial length
  match state with
  | .complete => pure output
  | _ => throw (.failed "failed to fill whole buffer")

inductive ScanOutcome (E : Type)
  | complete (events : List (StoredEvent E)) (durableLen : UInt64)
  | partialTail (events : List (StoredEvent E)) (durableLen : UInt64)

def scanRound (codec : Codec (StoredEvent E)) (maxFrameBytes : Nat) (offset : UInt64) :
    Update File (Round (List (StoredEvent E))) := do
  let (state, header) ← io "read batch header" (readOrPartial batchHeaderLen)
  match state with
  | .eof => pure .complete
  | .incomplete => pure .torn
  | .complete => do
      throwIf (header.take 4 ≠ batchMagic) (corrupt offset "invalid batch marker")
      let payloadLen := lengthField header
      throwIf (maxFrameBytes < payloadLen) (corrupt offset "batch exceeds configured frame limit")
      let expectedCrc := crcField header
      -- the allocation of the buffer
      throwIf (2 ^ 63 ≤ payloadLen) .panicked
      let (state, payload) ← io "read batch" (readOrPartial payloadLen)
      match state with
      | .complete => do
          throwIf (crc32c payload ≠ expectedCrc) (corrupt offset "batch checksum mismatch")
          let events ← decodePayload payload codec offset
          pure (.block events (batchHeaderLen + payloadLen))
      | _ => pure .torn

/-- The loop of `scan`, with a bound on the rounds. -/
def scanLoop (codec : Codec (StoredEvent E)) (maxFrameBytes : Nat) :
    Nat → List (StoredEvent E) → UInt64 → Update File (ScanOutcome E)
  | 0, _, _ => throw .panicked
  | rounds + 1, events, offset => do
      let round ← scanRound codec maxFrameBytes offset
      match round with
      | .complete => pure (.complete events offset)
      | .torn => pure (.partialTail events offset)
      | .block decoded length => do
          let length ← u64TryFrom length
          let offset ← checkedAdd offset length
          scanLoop codec maxFrameBytes rounds (events ++ decoded) offset

def scan (codec : Codec (StoredEvent E)) (maxFrameBytes : Nat) : Update File (ScanOutcome E) := do
  io "seek" (seek 0)
  let header ← io "read file header" (readExact fileHeader.length)
  throwIf (header ≠ fileHeader) (corrupt 0 "unsupported file header")
  let file ← get
  scanLoop codec maxFrameBytes (file.bytes.length + 1) [] (UInt64.ofNat fileHeader.length)

def readState (length : Nat) (rest : List UInt8) : ReadState :=
  if length ≤ rest.length then .complete else if rest = [] then .eof else .incomplete

theorem readLoop_ends (length rounds : Nat) {output : List UInt8} {file : File} (ho : output.length ≤ length)
    (hr : length ≤ output.length + rounds) :
    Ends (fun r g => Same file g ∧ g.rest = file.rest.drop (length - output.length) ∧
        r = (readState length (output ++ file.rest), (output ++ file.rest).take length))
      (Spoiled file) (readLoop length rounds output file) := by
  have hfull : output.length = length → (ReadState.complete, output) =
      (readState length (output ++ file.rest), (output ++ file.rest).take length) := by
    intro hlen
    have hle : length ≤ (output ++ file.rest).length := by
      rw [List.length_append]
      omega
    rw [readState, if_pos hle, ← hlen, List.take_left]
  induction rounds generalizing output file with
  | zero =>
      have hlen : output.length = length := by omega
      refine ⟨same_refl file, ?_, hfull hlen⟩
      rw [hlen, Nat.sub_self, List.drop_zero]
  | succ rounds ih =>
      rw [readLoop]
      by_cases hlt : output.length < length
      · rw [if_pos hlt]
        apply (read_ends _ file).bind
        intro chunk g hread
        obtain ⟨hsame, hposition, hchunk, hle, hnone⟩ := hread
        by_cases hempty : chunk = []
        · subst hempty
          have hrest : file.rest = [] := (hnone rfl).resolve_left (by omega)
          refine ⟨hsame, ?_, ?_⟩
          · rw [hsame.rest_of_advanced hposition, hrest, List.drop_nil, List.drop_nil]
          · rw [hrest, List.append_nil, readState, if_neg hlt.not_ge, List.take_of_length_le ho]
            cases output <;> rfl
        · have hpos : 0 < chunk.length := List.length_pos_iff.mpr hempty
          have hnext : output ++ chunk ++ g.rest = output ++ file.rest := by
            rw [hsame.rest_of_advanced hposition, List.append_assoc]
            congr 1
            nth_rewrite 1 [hchunk]
            exact List.take_append_drop _ _
          have hrounds := @ih (output ++ chunk) g (by rw [List.length_append]; omega)
            (by rw [List.length_append]; omega) (by
              intro hlen
              have hfits : length ≤ (output ++ chunk ++ g.rest).length := by
                rw [List.length_append]
                omega
              rw [readState, if_pos hfits, ← hlen, List.take_left])
          rw [if_neg (by simpa using hempty)]
          apply hrounds.mono
          · intro r h hr
            obtain ⟨hgh, hrest, hr⟩ := hr
            refine ⟨hsame.trans hgh, ?_, ?_⟩
            · rw [hrest, hsame.rest_of_advanced hposition, List.drop_drop, List.length_append]
              congr 1
              omega
            · rw [hr, hnext]
          · intro fault h hh
            exact hh.of_same hsame
      · rw [if_neg hlt]
        have hlen : output.length = length := by omega
        refine ⟨same_refl file, ?_, hfull hlen⟩
        rw [hlen, Nat.sub_self, List.drop_zero]

theorem readOrPartial_ends (length : Nat) (file : File) :
    Ends (fun r g => Same file g ∧ g.rest = file.rest.drop length ∧
        r = (readState length file.rest, file.rest.take length))
      (Spoiled file) (readOrPartial length file) :=
  readLoop_ends length length (Nat.zero_le _) (Nat.le_add_left _ _)

theorem readExact_ends (length : Nat) (file : File) :
    Ends (fun output g => Same file g ∧ length ≤ file.rest.length ∧ g.rest = file.rest.drop length ∧
        output = file.rest.take length)
      (fun _ g => g.bytes = file.bytes ∧ (¬ Faultless file ∨ file.rest.length < length))
      (readExact length file) := by
  apply Ends.bind ((readOrPartial_ends length file).mono (fun _ _ h => h) fun _ _ h => ⟨h.1, .inl h.2⟩)
  intro r g h
  obtain ⟨hs, hrest, rfl⟩ := h
  by_cases hle : length ≤ file.rest.length
  · rw [readState, if_pos hle]
    exact ⟨hs, hle, hrest, rfl⟩
  · have hbad : g.bytes = file.bytes ∧ (¬ Faultless file ∨ file.rest.length < length) :=
      ⟨hs.bytes, .inr (not_le.mp hle)⟩
    rw [readState, if_neg hle]
    by_cases hempty : file.rest = []
    · rw [if_pos hempty]
      exact hbad
    · rw [if_neg hempty]
      exact hbad

def Interrupted (file : File) (e : MemoryError) (g : File) : Prop :=
  g.bytes = file.bytes ∧ ¬ Faultless file ∧ e ≠ .panicked

theorem Interrupted.of_same {file g h : File} {e : MemoryError} (hg : Interrupted g e h) (hs : Same file g) :
    Interrupted file e h := ⟨hg.1.trans hs.bytes, fun hf => hg.2.1 (hs.faultless hf), hg.2.2⟩

theorem io_ends {good : α → File → Prop} {bad : Fault → File → Prop} {file : File} {operation : String}
    {call : FileM α} (h : Ends good bad (call file)) :
    Ends good (fun e g => e ≠ .panicked ∧ ∃ fault, bad fault g) (io operation call file) := by
  rw [io]
  cases hc : call file with
  | ok a g =>
      rw [hc] at h
      exact h
  | error fault g =>
      rw [hc] at h
      cases fault with
      | failed message => exact ⟨MemoryError.noConfusion, _, h⟩
      | stopped => exact ⟨MemoryError.noConfusion, _, h⟩

theorem io_interrupted {good : α → File → Prop} {file : File} {operation : String} {call : FileM α}
    (h : Ends good (Spoiled file) (call file)) :
    Ends good (Interrupted file) (io operation call file) := by
  apply (io_ends h).mono (fun _ _ h => h)
  intro e g h
  obtain ⟨he, fault, hbytes, hf⟩ := h
  exact ⟨hbytes, hf, he⟩

/-- A call that reads from the file what a computation is about, and ends as that does unless an
operation fails. -/
def Mirrors (r : Result α) (post : α → File → Prop) (file : File) :
    EStateM.Result MemoryError File α → Prop :=
  Ends (fun a g => Same file g ∧ r = .ok a ∧ post a g)
    (fun e g => g.bytes = file.bytes ∧ r = .error e ∨ Interrupted file e g)

theorem Mirrors.of_same {r : Result α} {post : α → File → Prop} {file g : File}
    {x : EStateM.Result MemoryError File α} (h : Mirrors r post g x) (hs : Same file g) :
    Mirrors r post file x := by
  apply Ends.mono h
  · intro a t ha
    exact ⟨hs.trans ha.1, ha.2⟩
  · intro e t he
    exact he.imp (fun he => ⟨he.1.trans hs.bytes, he.2⟩) (fun he => he.of_same hs)

theorem mirrors_io {r : Result β} {post : β → File → Prop} {good : α → File → Prop} {file : File}
    {operation : String} {call : FileM α} {next : α → Update File β}
    (hcall : Ends (fun a g => Same file g ∧ good a g) (Spoiled file) (call file))
    (h : ∀ a g, good a g → Mirrors r post g (next a g)) :
    Mirrors r post file ((io operation call >>= next) file) := by
  apply Ends.bind ((io_interrupted hcall).mono (fun _ _ h => h) fun _ _ h => .inr h)
  intro a g hg
  exact (h a g hg.2).of_same hg.1

theorem mirrors_check {check : Result α} {r : α → Result β} {post : β → File → Prop} {file : File}
    {next : α → Update File β} (h : ∀ a, check = .ok a → Mirrors (r a) post file (next a file)) :
    Mirrors (check >>= r) post file (((liftM check : Update File α) >>= next) file) := by
  cases check with
  | ok a => exact h a rfl
  | error e => exact .inl ⟨rfl, rfl⟩

theorem mirrors_pure {post : α → File → Prop} {file : File} {a : α} (h : post a file) :
    Mirrors (.ok a) post file ((pure a : Update File α) file) := ⟨same_refl file, rfl, h⟩

theorem scanRound_mirrors (codec : Codec (StoredEvent E)) (maxFrameBytes : Nat) (offset : UInt64) (file : File) :
    Mirrors (readFrame codec maxFrameBytes offset.toNat file.rest)
      (fun round g => ∀ events length, round = .block events length → g.rest = file.rest.drop length)
      file (scanRound codec maxFrameBytes offset file) := by
  apply mirrors_io (readOrPartial_ends batchHeaderLen file)
  intro header g h
  obtain ⟨hrest, rfl⟩ := h
  rw [readFrame, UInt64.ofNat_toNat]
  by_cases hempty : file.rest = []
  · rw [if_pos hempty, hempty, readState, if_neg (by decide), if_pos rfl]
    exact mirrors_pure fun _ _ h => by cases h
  · rw [if_neg hempty]
    by_cases hshort : file.rest.length < batchHeaderLen
    · rw [if_pos hshort, readState, if_neg hshort.not_ge, if_neg hempty]
      exact mirrors_pure fun _ _ h => by cases h
    · rw [if_neg hshort, readState, if_pos (not_lt.mp hshort)]
      apply mirrors_check
      intro _ hmagic
      rw [readBatch, UInt64.ofNat_toNat]
      apply mirrors_check
      intro _ hlimit
      apply mirrors_check
      intro _ hfits
      apply mirrors_io (readOrPartial_ends _ g)
      intro payload t h
      obtain ⟨hbehind, rfl⟩ := h
      rw [hrest] at hbehind ⊢
      by_cases hlong : (file.rest.drop batchHeaderLen).length < lengthField (file.rest.take batchHeaderLen)
      · rw [if_pos hlong, readState, if_neg hlong.not_ge]
        have htorn := @mirrors_pure (Round (List (StoredEvent E))) (fun round t =>
          ∀ events length, round = .block events length → t.rest = file.rest.drop length) t .torn
          fun _ _ h => by cases h
        by_cases hnone : file.rest.drop batchHeaderLen = []
        · rw [if_pos hnone]
          exact htorn
        · rw [if_neg hnone]
          exact htorn
      · rw [if_neg hlong, readState, if_pos (not_lt.mp hlong)]
        apply mirrors_check
        intro _ hcrc
        apply mirrors_check
        intro events hevents
        apply mirrors_pure
        intro _ _ h
        cases h
        rw [hbehind, List.drop_drop]

def outcomeOf (events : List (StoredEvent E)) (s : Scanned (List (StoredEvent E))) : ScanOutcome E :=
  if s.complete then .complete (events ++ s.blocks.flatten) (UInt64.ofNat s.durable)
  else .partialTail (events ++ s.blocks.flatten) (UInt64.ofNat s.durable)

theorem outcomeOf_behind (events decoded : List (StoredEvent E)) (s : Scanned (List (StoredEvent E))) :
    outcomeOf events (s.behind [decoded]) = outcomeOf (events ++ decoded) s := by
  have hevents : events ++ (s.behind [decoded]).blocks.flatten = events ++ decoded ++ s.blocks.flatten :=
    (List.append_assoc events decoded s.blocks.flatten).symm
  rw [outcomeOf, outcomeOf, hevents]
  rfl

theorem outcomeOf_nil (events : List (StoredEvent E)) (offset : UInt64) (complete : Bool) :
    outcomeOf events ⟨[], offset.toNat, complete⟩ =
      if complete then .complete events offset else .partialTail events offset := by
  rw [outcomeOf, List.flatten_nil, List.append_nil, UInt64.ofNat_toNat]

/-- The loop scans the rest of the file, however its reads are split. -/
theorem scanLoop_ends (codec : Codec (StoredEvent E)) (maxFrameBytes rounds : Nat)
    (events : List (StoredEvent E)) (offset : UInt64) (file : File) (hrounds : file.rest.length < rounds)
    (hoffset : offset.toNat + file.rest.length < 2 ^ 63) :
    Ends (fun outcome g => Same file g ∧ ∃ s, outcome = outcomeOf events s ∧
        Blocks.Scan (readFrame codec maxFrameBytes) offset.toNat file.rest (.ok s))
      (fun e g => g.bytes = file.bytes ∧
        Blocks.Scan (readFrame codec maxFrameBytes) offset.toNat file.rest (.error e) ∨ Interrupted file e g)
      (scanLoop codec maxFrameBytes rounds events offset file) := by
  induction rounds generalizing events offset file with
  | zero => exact absurd hrounds (Nat.not_lt_zero _)
  | succ rounds ih =>
      rw [scanLoop]
      have hround := scanRound_mirrors codec maxFrameBytes offset file
      apply Ends.bind (hround.mono (fun _ _ h => h) fun _ _ h => h.imp_left fun h => ⟨h.1, .failed h.2⟩)
      intro round g h
      obtain ⟨hs, hread, hbehind⟩ := h
      cases round with
      | complete => exact ⟨hs, _, (outcomeOf_nil events offset true).symm, .complete hread⟩
      | torn => exact ⟨hs, _, (outcomeOf_nil events offset false).symm, .torn hread⟩
      | block decoded length =>
          have hframing := readFrame_framing codec maxFrameBytes
          obtain ⟨hblock, hle⟩ := hframing.sound hread
          have hpos : 0 < length := by
            have hne := List.length_pos_iff.mpr (hframing.nonempty hblock)
            rw [List.length_take] at hne
            omega
          have hrest := hbehind decoded length rfl
          have hlength : u64TryFrom length = .ok (UInt64.ofNat length) := by
            rw [u64TryFrom, if_pos (by omega)]
          have htoNat : (UInt64.ofNat length).toNat = length := u64TryFrom_eq_ok.mp hlength
          have hsum : checkedAdd offset (UInt64.ofNat length) = .ok (offset + UInt64.ofNat length) := by
            rw [checkedAdd_eq_ok, UInt64.toNat_add, htoNat]
            omega
          have hnext : (offset + UInt64.ofNat length).toNat = offset.toNat + length := by
            rw [checkedAdd_eq_ok.mp hsum, htoNat]
          have hlater := ih (events ++ decoded) (offset + UInt64.ofNat length) g
            (by rw [hrest, List.length_drop]; omega) (by rw [hrest, hnext, List.length_drop]; omega)
          rw [hrest, hnext] at hlater
          simp only [hlength, hsum, bind_apply, liftM_eq, ofResult_ok]
          apply hlater.mono
          · intro outcome t h
            obtain ⟨ht, s, rfl, hscan⟩ := h
            exact ⟨hs.trans ht, _, (outcomeOf_behind events decoded s).symm, .block hread hscan⟩
          · intro e t h
            refine h.imp (fun h => ⟨h.1.trans hs.bytes, ?_⟩) (fun h => h.of_same hs)
            exact .block hread h.2

theorem scan_ends (codec : Codec (StoredEvent E)) (maxFrameBytes : Nat) (file : File) :
    Ends (fun outcome g => Same file g ∧ ∃ rest s, file.bytes = fileHeader ++ rest ∧ outcome = outcomeOf [] s ∧
        Blocks.Scan (readFrame codec maxFrameBytes) fileHeader.length rest (.ok s))
      (fun e g => g.bytes = file.bytes ∧ (∀ rest, file.bytes = fileHeader ++ rest →
        Blocks.Scan (readFrame codec maxFrameBytes) fileHeader.length rest (.error e)) ∨ Interrupted file e g)
      (scan codec maxFrameBytes file) := by
  apply Ends.bind ((io_interrupted (seek_ends 0 file)).mono (fun _ _ h => h) fun _ _ h => .inr h)
  intro _ g h
  obtain ⟨hg, hposition⟩ := h
  have hbytes : g.rest = file.bytes := by rw [File.rest, hposition, hg.bytes, List.drop_zero]
  apply Ends.bind ((io_ends (readExact_ends fileHeader.length g)).mono (fun _ _ h => h) _)
  · intro header t h
    obtain ⟨ht, hle, hrest, rfl⟩ := h
    rw [hbytes] at hle hrest ⊢
    by_cases hheader : file.bytes.take fileHeader.length = fileHeader
    · have hsplit : file.bytes = fileHeader ++ t.rest := by
        nth_rewrite 1 [hrest, ← hheader]
        exact (List.take_append_drop _ _).symm
      have hfits := file.fits
      have hlength := congrArg List.length hsplit
      rw [List.length_append] at hlength
      have hsame := hg.trans ht
      have hstart : (UInt64.ofNat fileHeader.length).toNat = fileHeader.length := rfl
      have hloop := scanLoop_ends codec maxFrameBytes (t.bytes.length + 1) [] (UInt64.ofNat fileHeader.length) t
        (by rw [hsame.bytes]; omega) (by rw [hstart]; omega)
      rw [hstart] at hloop
      simp only [throwIf_of_not (not_not.mpr hheader), bind_apply, liftM_eq, ofResult_ok, get_apply]
      apply hloop.mono
      · intro outcome u h
        obtain ⟨hu, s, houtcome, hscan⟩ := h
        exact ⟨hsame.trans hu, t.rest, s, hsplit, houtcome, hscan⟩
      · intro e u h
        refine h.imp (fun h => ⟨h.1.trans hsame.bytes, fun rest hr => ?_⟩) fun h => h.of_same hsame
        rw [List.append_cancel_left (hr.symm.trans hsplit)]
        exact h.2
    · have hcorrupt : throwIf (file.bytes.take fileHeader.length ≠ fileHeader)
          (corrupt 0 "unsupported file header") = .error (corrupt 0 "unsupported file header") := if_pos hheader
      simp only [hcorrupt, bind_apply, liftM_eq, ofResult_error]
      refine .inl ⟨(hg.trans ht).bytes, fun rest hr => absurd ?_ hheader⟩
      rw [hr, List.take_left]
  · intro e t h
    obtain ⟨he, _, ht, hbad⟩ := h
    obtain hf | hshort := hbad
    · exact .inr ⟨ht.trans hg.bytes, fun hfile => hf (hg.faultless hfile), he⟩
    · refine .inl ⟨ht.trans hg.bytes, fun rest hr => absurd hshort ?_⟩
      rw [hbytes, hr, List.length_append]
      omega

def journal (frames : List (Vec UInt8)) : List UInt8 := fileHeader ++ (frames.map (·.items)).flatten

abbrev Written (codec : Codec (StoredEvent E)) (maxFrameBytes : Nat) :
    List (List (StoredEvent E)) → List (Vec UInt8) → Prop :=
  List.Forall₂ fun batch frame => encodeBatch batch codec maxFrameBytes = .ok frame

theorem Written.frames {codec : Codec (StoredEvent E)} (hcodec : codec.Inverts) {maxFrameBytes : Nat}
    {batches : List (List (StoredEvent E))} {frames : List (Vec UInt8)}
    (h : Written codec maxFrameBytes batches frames) :
    List.Forall₂ (Frames codec maxFrameBytes) (frames.map (·.items)) batches := by
  apply List.forall₂_map_left_iff.mpr
  apply List.Forall₂.flip
  exact h.imp fun _ _ h => frames_of_encodeBatch hcodec h

theorem scan_of_faultless {codec : Codec (StoredEvent E)} {maxFrameBytes : Nat} {file : File}
    (hf : Faultless file) {rest : List UInt8} (hbytes : file.bytes = fileHeader ++ rest)
    {r : Result (Scanned (List (StoredEvent E)))}
    (hscan : Blocks.Scan (readFrame codec maxFrameBytes) fileHeader.length rest r) :
    Ends (fun outcome g => Same file g ∧ ∃ s, r = .ok s ∧ outcome = outcomeOf [] s)
      (fun e g => g.bytes = file.bytes ∧ r = .error e) (scan codec maxFrameBytes file) := by
  apply (scan_ends codec maxFrameBytes file).mono
  · intro outcome g h
    obtain ⟨hs, rest', s, hbytes', rfl, hscan'⟩ := h
    rw [← List.append_cancel_left (hbytes.symm.trans hbytes')] at hscan'
    exact ⟨hs, s, hscan.unique hscan', rfl⟩
  · intro e g h
    obtain ⟨hg, hfailed⟩ | ⟨-, hfaulty, -⟩ := h
    · exact ⟨hg, hscan.unique (hfailed rest hbytes)⟩
    · exact absurd hf hfaulty

/-- Cut anywhere behind the file header, a log scans as its frames before the cut. -/
theorem scan_journal_take {codec : Codec (StoredEvent E)} (hcodec : codec.Inverts) {maxFrameBytes : Nat}
    {batches : List (List (StoredEvent E))} {frames : List (Vec UInt8)}
    (h : Written codec maxFrameBytes batches frames) {cut : Nat} (hlow : fileHeader.length ≤ cut)
    (hcut : cut ≤ (journal frames).length) {file : File} (hbytes : file.bytes = (journal frames).take cut)
    (hfaultless : Faultless file) :
    ∃ n durableLen g, scan codec maxFrameBytes file = .ok (if cut = durableLen.toNat
        then .complete (batches.take n).flatten durableLen
        else .partialTail (batches.take n).flatten durableLen) g ∧ g.bytes = file.bytes ∧
      durableLen.toNat = (journal (frames.take n)).length ∧
      ∀ i < frames.length, i < n ↔ (journal (frames.take (i + 1))).length ≤ cut := by
  have hlength : ∀ frames : List (Vec UInt8), (journal frames).length =
      fileHeader.length + (frames.map (·.items)).flatten.length := fun frames => List.length_append
  have hlow' : cut - fileHeader.length ≤ (frames.map (·.items)).flatten.length := by
    rw [hlength] at hcut
    omega
  obtain ⟨n, hscan, hn⟩ := scan_take (readFrame_framing codec maxFrameBytes) (h.frames hcodec) hlow'
    fileHeader.length
  have hrest : file.bytes = fileHeader ++ (frames.map (·.items)).flatten.take (cut - fileHeader.length) := by
    rw [hbytes, journal, List.take_append, List.take_of_length_le hlow]
  obtain ⟨g, hg, hok⟩ : ∃ g, Same file g ∧ scan codec maxFrameBytes file = .ok (outcomeOf [] _) g := by
    have h := scan_of_faultless hfaultless hrest hscan
    cases hr : scan codec maxFrameBytes file with
    | ok outcome g =>
        obtain ⟨hg, s, hs, rfl⟩ := h.of_ok hr
        rw [← Except.ok.inj hs]
        exact ⟨g, hg, rfl⟩
    | error e g => cases (h.of_error hr).2
  have hdurable := scan_durable_le (readFrame_framing codec maxFrameBytes) hscan
  rw [List.length_take, Nat.min_eq_left hlow', Nat.add_sub_cancel' hlow] at hdurable
  have hfits := file.fits
  rw [hbytes, List.length_take, Nat.min_eq_left hcut] at hfits
  have hend : (UInt64.ofNat (fileHeader.length + ((frames.map (·.items)).take n).flatten.length)).toNat =
      (journal (frames.take n)).length := by
    rw [UInt64.toNat_ofNat_of_lt' (lt_of_le_of_lt hdurable (hfits.trans (by decide))), hlength, List.map_take]
  refine ⟨n, _, g, hok.trans ?_, hg.bytes, hend, ?_⟩
  · rw [outcomeOf, List.nil_append, hend, hlength, List.map_take]
    by_cases hc : cut = fileHeader.length + ((frames.map (·.items)).take n).flatten.length
    · rw [if_pos hc, if_pos (decide_eq_true (by omega))]
    · rw [if_neg hc, if_neg]
      rw [decide_eq_true_iff]
      omega
  · intro i hi
    rw [hn i (by rwa [List.length_map]), hlength, List.map_take]
    omega

/-- A codec that knows a table of values, and writes the index of a value. -/
def tableCodec {T : Type} [DecidableEq T] (table : List T) : Codec T where
  encode value := match table.idxOf? value with
    | some index => if index < 2 ^ 8 then .ok ⟨[UInt8.ofNat index], by simp⟩ else .error (.codec "large index")
    | none => .error (.codec "unknown value")
  decode bytes := match bytes with
    | [index] => match table[index.toNat]? with
      | some value => .ok value
      | none => .error (.codec "unknown index")
    | _ => .error (.codec "not an index")
  encode_returns := by
    intro value e h
    split at h
    · split at h
      · cases h
      · cases h
        exact ⟨by simp, by simp⟩
    · cases h
      exact ⟨by simp, by simp⟩
  decode_returns := by
    intro bytes e h
    split at h
    · split at h
      · cases h
      · cases h
        exact ⟨by simp, by simp⟩
    · cases h
      exact ⟨by simp, by simp⟩

theorem tableCodec_inverts {T : Type} [DecidableEq T] (table : List T) : (tableCodec table).Inverts := by
  intro value bytes h
  simp only [tableCodec] at h ⊢
  split at h
  · rename_i index hindex
    split at h
    · rename_i hlt
      obtain ⟨hi, hvalue, -⟩ := List.idxOf?_eq_some_iff.mp hindex
      rw [← Except.ok.inj h]
      simp only [UInt8.toNat_ofNat_of_lt' hlt, List.getElem?_eq_getElem hi, hvalue]
    · cases h
  · cases h

def retractedCodec : Codec (StoredEvent MemoryEvent) := tableCodec Common.retractedOnce

def encoded (codec : Codec (StoredEvent E)) (batch : List (StoredEvent E)) : Vec UInt8 :=
  match encodeBatch batch codec 64 with
  | .ok frame => frame
  | .error _ => ⟨[], nil_fits⟩

def twoBatches : List (List (StoredEvent MemoryEvent)) := [Common.retractedOnce.take 3, Common.retractedOnce.drop 3]

def twoFrames : List (Vec UInt8) := twoBatches.map (encoded retractedCodec)

/-- A file whose reads return between one and three bytes. -/
def tornFile : File where
  bytes := (journal twoFrames).take 60
  fits := (List.length_take_le _ _).trans_lt (by decide)
  position := 0
  locked := false
  fates n := ⟨n % 3, .done⟩

theorem twoFrames_written : Written retractedCodec 64 twoBatches twoFrames :=
  .cons (by decide +kernel) (.cons (by decide +kernel) .nil)

theorem scan_journal_take_torn :
    ∃ g, scan retractedCodec 64 tornFile = .ok (.partialTail (Common.retractedOnce.take 3) 55) g := by
  have hbytes : tornFile.bytes = (journal twoFrames).take 60 := rfl
  have h := scan_journal_take (tableCodec_inverts Common.retractedOnce) twoFrames_written (by decide)
    (by decide +kernel) hbytes ⟨rfl, fun _ => rfl⟩
  obtain ⟨n, durableLen, g, hscan, -, hend, hn⟩ := h
  have hone : 0 < n := (hn 0 (by decide)).mpr (by decide +kernel)
  have htwo : ¬ 1 < n := fun h => absurd ((hn 1 (by decide)).mp h) (by decide +kernel)
  obtain rfl : n = 1 := by omega
  have hlen : durableLen = 55 := by
    rw [← UInt64.toNat_inj, hend]
    decide +kernel
  subst hlen
  exact ⟨g, hscan⟩

end WeavatrixMemory.Store.Scan
