import WeavatrixMemory.Extraction.Recording

namespace WeavatrixMemory.Extraction.Plans

open Error Identity Domain Key Model Linker Engine Merging Created Validity Recording

variable {provider : Text} {input : ExtractionInput} {nodes : List MemoryNode} {fingerprint : String}
  {mentions : List (ExtractedEntity × LinkDecision)} {byMention : BTreeMap Text LinkDecision}
  {relation : ExtractedRelation} {source target : LinkDecision}

def LeftOpen (mentions : List (ExtractedEntity × LinkDecision)) (relation : ExtractedRelation) : Prop :=
  ∃ mention ∈ mentions, (mention.1.localId = relation.source ∨ mention.1.localId = relation.target) ∧
    (mention.2.method = .ambiguous ∨ mention.2.method = .unresolved)

instance decidableLeftOpen (mentions : List (ExtractedEntity × LinkDecision)) : DecidablePred (LeftOpen mentions) :=
  fun _ => inferInstanceAs (Decidable (∃ mention ∈ mentions, _))

/-- The fact records the relation between the entities that its endpoints are linked to. -/
structure Between (provider : Text) (input : ExtractionInput) (mentions : List (ExtractedEntity × LinkDecision))
    (relation : ExtractedRelation) (fact : MemoryFact) : Prop where
  source : ∃ mention ∈ mentions, mention.1.localId = relation.source ∧ mention.2.entityId = some fact.source
  target : ∃ mention ∈ mentions, mention.1.localId = relation.target ∧ mention.2.entityId = some fact.target
  recorded : RecordedAs provider input (fingerprintOf input) relation fact.source fact.target fact

def Rejects (mentions : List (ExtractedEntity × LinkDecision)) (relation : ExtractedRelation)
    (rejected : RejectedRelation) : Prop :=
  ∃ source ∈ mentions, ∃ target ∈ mentions, source.1.localId = relation.source ∧ target.1.localId = relation.target ∧
    rejected = rejectedRelation relation source.2 target.2

def MapOf (mentions : List (ExtractedEntity × LinkDecision)) (byMention : BTreeMap Text LinkDecision) : Prop :=
  ∀ localId decision, byMention[localId]? = some decision ↔
    ∃ mention ∈ mentions, mention.1.localId = localId ∧ mention.2 = decision

theorem insertAll_lookup (hnodup : (mentions.map (·.1.localId)).Nodup) (before : BTreeMap Text LinkDecision)
    (localId : Text) (decision : LinkDecision) :
    (mentions.foldl (fun byMention mention => byMention.insert mention.1.localId mention.2) before)[localId]? =
        some decision ↔
      (∃ mention ∈ mentions, mention.1.localId = localId ∧ mention.2 = decision) ∨
        localId ∉ mentions.map (·.1.localId) ∧ before[localId]? = some decision := by
  induction mentions generalizing before with
  | nil => simp
  | cons first rest ih =>
      rw [List.map_cons, List.nodup_cons] at hnodup
      obtain ⟨hfirst, hrest⟩ := hnodup
      rw [List.foldl_cons, ih hrest, getElem?_insert, List.map_cons, List.mem_cons]
      by_cases hid : localId = first.1.localId
      · subst hid
        have hnone : ¬ ∃ mention ∈ rest, mention.1.localId = first.1.localId ∧ mention.2 = decision := by
          rintro ⟨mention, hm, hsame, -⟩
          exact hfirst (List.mem_map.mpr ⟨mention, hm, hsame⟩)
        rw [if_pos rfl, or_iff_right hnone, and_iff_right hfirst, Option.some.injEq]
        constructor
        · intro h
          exact .inl ⟨first, List.mem_cons_self, rfl, h⟩
        · rintro (⟨mention, hm, hsame, hd⟩ | ⟨hnot, -⟩)
          · obtain rfl | hm := List.mem_cons.mp hm
            · exact hd
            · exact absurd ⟨mention, hm, hsame, hd⟩ hnone
          · exact absurd (.inl rfl) hnot
      · rw [if_neg hid]
        refine or_congr ?_ (and_congr_left' (not_congr (or_iff_right hid).symm))
        constructor
        · rintro ⟨mention, hm, h⟩
          exact ⟨mention, List.mem_cons_of_mem _ hm, h⟩
        · rintro ⟨mention, hm, hsame, hd⟩
          obtain rfl | hm := List.mem_cons.mp hm
          · exact absurd hsame.symm hid
          · exact ⟨mention, hm, hsame, hd⟩

theorem mentionMap_mapOf (hnodup : (mentions.map (·.1.localId)).Nodup) : MapOf mentions (mentionMap mentions) := by
  intro localId decision
  rw [mentionMap, insertAll_lookup hnodup, Std.ExtTreeMap.getElem?_empty]
  exact or_iff_left fun h => by cases h.2

theorem leftOpen_iff (hmap : MapOf mentions byMention) (hdecided : ∀ mention ∈ mentions, Decided nodes mention.2)
    (hsource : byMention[relation.source]? = some source) (htarget : byMention[relation.target]? = some target) :
    LeftOpen mentions relation ↔ source.entityId = none ∨ target.entityId = none := by
  have hopen {localId : Text} {decision : LinkDecision} (hd : byMention[localId]? = some decision) :
      decision.entityId = none ↔ ∃ mention ∈ mentions, mention.1.localId = localId ∧
        (mention.2.method = .ambiguous ∨ mention.2.method = .unresolved) := by
    obtain ⟨mention, hm, hid, rfl⟩ := (hmap _ _).mp hd
    rw [(hdecided mention hm).undecided]
    constructor
    · intro hmethod
      exact ⟨mention, hm, hid, hmethod⟩
    · rintro ⟨other, ho, hsame, hmethod⟩
      have hother := (hmap localId other.2).mpr ⟨other, ho, hsame, rfl⟩
      rwa [Option.some.inj (hd.symm.trans hother)]
  rw [LeftOpen, hopen hsource, hopen htarget, ← exists_or]
  refine exists_congr fun mention => ?_
  rw [← and_or_left, ← or_and_right]

structure Proposes (provider : Text) (input : ExtractionInput) (mentions : List (ExtractedEntity × LinkDecision))
    (relation : ExtractedRelation) (event : NewEvent MemoryEvent) (fact : MemoryFact) : Prop where
  payload : event.payload = .factRecorded fact
  stamped : Stamped input event
  between : Between provider input mentions relation fact
  name : event.id.toString = "event:auto:fact:" ++
    hex (stableHash (factTuple provider input (fingerprintOf input) fact))

/-- Each relation becomes one event, or one entry of the rejected relations. -/
theorem relationEvents_spec (hinput : SoundInput input) (hmap : MapOf mentions byMention)
    (hdecided : ∀ mention ∈ mentions, Decided nodes mention.2) {relations : List ExtractedRelation}
    {events : List (NewEvent MemoryEvent)} {rejected : List RejectedRelation}
    (h : relationEvents provider input (fingerprintOf input) byMention relations = .ok (events, rejected)) :
    List.Forall₂ (fun relation event => ∃ fact, Proposes provider input mentions relation event fact)
        (relations.filter fun relation => ¬ LeftOpen mentions relation) events ∧
      List.Forall₂ (Rejects mentions) (relations.filter fun relation => LeftOpen mentions relation) rejected := by
  induction relationEvents_eq_ok.mp h with
  | done => exact ⟨.nil, .nil⟩
  | @recorded relation rest source target sourceId targetId fact event events rejected hsource htarget hs ht hfact
      hevent hothers ih =>
      obtain ⟨hevents, hrejected⟩ := ih (relationEvents_eq_ok.mpr hothers)
      have hlinked : ¬ LeftOpen mentions relation := by
        rw [leftOpen_iff hmap hdecided hsource htarget, hs, ht]
        exact not_or_intro (Option.some_ne_none _) (Option.some_ne_none _)
      obtain ⟨first, hfirst, hfirstId, rfl⟩ := (hmap _ _).mp hsource
      obtain ⟨second, hsecond, hsecondId, rfl⟩ := (hmap _ _).mp htarget
      rw [List.filter_cons, List.filter_cons, if_pos (decide_eq_true hlinked),
        if_neg fun h => hlinked (of_decide_eq_true h)]
      have hrecorded := buildFact_recordedAs hinput hfact
      obtain ⟨hstamped, hname⟩ := factEvent_stamped hevent
      refine ⟨.cons ⟨fact, factEvent_payload hevent, hstamped, ⟨⟨first, hfirst, hfirstId, ?_⟩,
        ⟨second, hsecond, hsecondId, ?_⟩, ?_⟩, hname⟩ hevents, hrejected⟩
      · rw [hs, hrecorded.source]
      · rw [ht, hrecorded.target]
      · rw [hrecorded.source, hrecorded.target]
        exact hrecorded
  | @rejected relation rest source target events rejected hsource htarget hnone hothers ih =>
      obtain ⟨hevents, hrejected⟩ := ih (relationEvents_eq_ok.mpr hothers)
      have hleft : LeftOpen mentions relation := (leftOpen_iff hmap hdecided hsource htarget).mpr hnone
      obtain ⟨first, hfirst, hfirstId, rfl⟩ := (hmap _ _).mp hsource
      obtain ⟨second, hsecond, hsecondId, rfl⟩ := (hmap _ _).mp htarget
      rw [List.filter_cons, List.filter_cons, if_neg fun h => absurd hleft (of_decide_eq_true h),
        if_pos (decide_eq_true hleft)]
      exact ⟨hevents, .cons ⟨first, hfirst, second, hsecond, hfirstId, hsecondId, rfl⟩ hrejected⟩

end WeavatrixMemory.Extraction.Plans
