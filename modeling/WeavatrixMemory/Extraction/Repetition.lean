import WeavatrixMemory.Extraction.Survival

namespace WeavatrixMemory.Extraction.Repetition

open Error Identity Domain Key Model Linker Engine Candidates Linking Created Validity Recording Plans Provenance
open Committing Survival
open Catalog (CatalogValid Catalogued Admissible labelName exists_fromView fromView_catalogued)
open Projection.State Projection.Memory Projection.Invariant Projection.Batches Projection.Revisions Projection.Shown
open Projection.Views Store.InMemory Store.EventLog Store.Commit Snapshot.Routes Logs

variable {unicode : Unicode} {policy : LinkPolicy} {provider : Text} {input : ExtractionInput} {linker : EntityLinker}
  {nodes : List MemoryNode} {mention : ExtractedEntity} {id : EntityId}

/-- The entity that the mention names, or else the one that it matches best and clearly. -/
inductive Picks (unicode : Unicode) (policy : LinkPolicy) (input : ExtractionInput) (nodes : List MemoryNode)
    (mention : ExtractedEntity) : EntityId → Prop
  | named {id : EntityId} (stable : mention.stableId = some id) : Picks unicode policy input nodes mention id
  | matched {best : LinkCandidate} {others : List LinkCandidate} (stable : mention.stableId = none)
      (ranked : Ranked (Offers nodes mention input (Matches unicode mention)) (best :: others))
      (reaches : Reaches policy best) (clear : Clear policy best others) :
      Picks unicode policy input nodes mention best.entityId

/-- The entity that the mention names is there, with the kind of the mention. If it names none, some node matches it
with the minimum score. -/
structure Settled (unicode : Unicode) (policy : LinkPolicy) (input : ExtractionInput) (nodes : List MemoryNode)
    (mention : ExtractedEntity) : Prop where
  named : ∀ id, mention.stableId = some id → ∃ node ∈ nodes, node.id = id ∧
    normalized unicode node.kind.str = normalized unicode mention.kind.str
  matched : mention.stableId = none → ∃ id score method,
    Offers nodes mention input (Matches unicode mention) id score method ∧ policy.minimumScore.toNat ≤ score

structure Kept (unicode : Unicode) (policy : LinkPolicy) (input : ExtractionInput) (nodes : List MemoryNode)
    (mention : ExtractedEntity) (d : LinkDecision) : Prop where
  known : d.method ≠ .created
  picked : ∀ id, d.entityId = some id → Picks unicode policy input nodes mention id

theorem linkStableId_kept (hc : Catalogued unicode nodes linker) (hstable : mention.stableId = some id)
    (h : Settled unicode policy input nodes mention) :
    ∃ d, linkStableId unicode linker mention id = .ok d ∧ Kept unicode policy input nodes mention d := by
  obtain ⟨node, hn, hid, hkind⟩ := h.named id hstable
  obtain ⟨i, hi⟩ := List.mem_iff_getElem?.mp hn
  have hindex := (hc.byId id i).mpr ⟨node, hi, hid⟩
  refine ⟨decision mention (some id) mention.confidence .stableId [⟨id, mention.confidence, .stableId⟩], ?_, ?_⟩
  · rw [linkStableId, hindex]
    dsimp only
    have hsame : ¬ (Catalog.catalogEntity unicode node).kind ≠ normalized unicode mention.kind.str := not_not.mpr hkind
    rw [getAt_nodes hc hi, ok_bind, throwIf_of_not hsame, ok_bind]
  · refine ⟨fun hmethod => (by cases hmethod), fun other ho => ?_⟩
    obtain rfl := Option.some.inj ho
    exact .named hstable

theorem reaches_of_offer {candidates : List LinkCandidate}
    (hranked : Ranked (Offers nodes mention input (Matches unicode mention)) candidates) {score : Nat}
    {method : LinkMethod} (hoffer : Offers nodes mention input (Matches unicode mention) id score method)
    (hscore : policy.minimumScore.toNat ≤ score) :
    ∃ best others, candidates = best :: others ∧ Reaches policy best := by
  obtain ⟨c, hc, rfl⟩ := hranked.complete id score method hoffer
  have hbest := (hranked.best c hc).best score method hoffer
  cases candidates with
  | nil => exact absurd hc List.not_mem_nil
  | cons best others =>
      refine ⟨best, others, rfl, hscore.trans (hbest.trans ?_)⟩
      obtain rfl | hc := List.mem_cons.mp hc
      · exact le_rfl
      · exact sortsBefore_score ((List.pairwise_cons.mp hranked.sorted).1 c hc)

theorem link_kept (hc : Catalogued unicode nodes linker) (hscore : policy.minimumScore ≤ 10000)
    (hmargin : policy.minimumMargin ≤ 10000) (h : Settled unicode policy input nodes mention) :
    ∃ d, link unicode linker mention input policy = .ok d ∧ Kept unicode policy input nodes mention d := by
  cases hstable : mention.stableId with
  | some stableId =>
      obtain ⟨d, hd, hkept⟩ := linkStableId_kept hc hstable h
      exact ⟨d, (link_eq_stable hstable hscore hmargin).trans hd, hkept⟩
  | none =>
      obtain ⟨id, score, method, hoffer, hleast⟩ := h.matched hstable
      obtain ⟨candidates, hcollect, hranked⟩ := collectCandidates_ranked hc mention input
      obtain ⟨best, others, hlist, hreaches⟩ := reaches_of_offer hranked hoffer hleast
      have hresolved := @resolveCandidates_resolved _ _ _ mention input policy _ hc hranked.sorted
      rw [link_eq hstable hscore hmargin hcollect]
      have hlow (hall : ∀ best ∈ candidates.head?, ¬ Reaches policy best) : False :=
        hall best (by rw [hlist]; rfl) hreaches
      cases hresult : resolveCandidates unicode linker mention input policy candidates with
      | ok d =>
          rw [hresult] at hresolved
          refine ⟨d, rfl, ?_⟩
          cases hresolved with
          | @selected first rest hfirst hreaches hclear =>
              have hmem : first ∈ candidates := hfirst ▸ List.mem_cons_self
              refine ⟨(hranked.best first hmem).matching.2.1, fun other ho => ?_⟩
              obtain rfl := Option.some.inj ho
              exact .matched hstable (hfirst ▸ hranked) hreaches hclear
          | ambiguous => exact ⟨fun hmethod => (by cases hmethod), fun other ho => (by cases ho)⟩
          | unresolved hall | created hall => exact (hlow hall).elim
      | error e =>
          rw [hresult] at hresolved
          cases hresolved with
          | collides hall => exact (hlow hall).elim

theorem exists_linkEntities {entities : List ExtractedEntity}
    (h : ∀ mention ∈ entities, ∃ d, link unicode linker mention input policy = .ok d) :
    ∃ links, linkEntities unicode linker input policy entities = .ok links := by
  induction entities with
  | nil => exact ⟨[], rfl⟩
  | cons entity rest ih =>
      obtain ⟨⟨d, hd⟩, hrest⟩ := List.forall_mem_cons.mp h
      obtain ⟨links, hlinks⟩ := ih hrest
      exact ⟨d :: links, by rw [linkEntities, hd, ok_bind, hlinks, ok_bind]⟩

theorem createNodes_of_known {mentions : List (ExtractedEntity × LinkDecision)} {before : BTreeMap EntityId MemoryNode}
    (h : ∀ mention ∈ mentions, mention.2.method ≠ .created) :
    createNodes provider input mentions before = .ok before := by
  induction mentions with
  | nil => rfl
  | cons first rest ih =>
      obtain ⟨mention, d⟩ := first
      obtain ⟨hfirst, hrest⟩ := List.forall_mem_cons.mp h
      rw [createNodes, if_pos hfirst]
      exact ih hrest

/-- The scores of the links have no say in anything but the confidence of a fact. -/
theorem buildFact_rescored {fingerprint : String} {relation : ExtractedRelation} {sourceLink targetLink : LinkDecision}
    {source target : EntityId} {fact : MemoryFact}
    (h : buildFact provider input fingerprint relation sourceLink targetLink source target = .ok fact)
    (sourceLink' targetLink' : LinkDecision) :
    buildFact provider input fingerprint relation sourceLink' targetLink' source target =
      .ok (fact.withConfidence (minConfidence relation.confidence sourceLink'.score targetLink'.score)) := by
  rw [buildFact] at h
  obtain ⟨text, htext, h⟩ := bind_eq_ok.mp h
  obtain ⟨id, hid, h⟩ := bind_eq_ok.mp h
  obtain ⟨origin, horigin, h⟩ := bind_eq_ok.mp h
  obtain ⟨bare, hbare, h⟩ := bind_eq_ok.mp h
  obtain ⟨evidence, hevidence, h⟩ := bind_eq_ok.mp h
  obtain ⟨evidenced, hevidenced, h⟩ := bind_eq_ok.mp h
  rw [MemoryFact.withEvidence] at hevidenced
  obtain ⟨items, hitems, hevidenced⟩ := bind_eq_ok.mp hevidenced
  obtain rfl := Except.ok.inj hevidenced
  have hscored : ((bare.observed input.occurredAt).withConfidence
      (minConfidence relation.confidence sourceLink'.score targetLink'.score)).evidence.push evidence =
        .ok items := hitems
  rw [buildFact, htext, ok_bind, hid, ok_bind, horigin, ok_bind, hbare, ok_bind, hevidence, ok_bind,
    MemoryFact.withEvidence, hscored, ok_bind, ok_bind]
  cases huntil : relation.validUntil with
  | none =>
      rw [huntil] at h
      obtain rfl := Except.ok.inj h
      rfl
  | some validUntil =>
      rw [huntil] at h
      obtain ⟨hvalid, h⟩ := unit_bind_eq_ok.mp h
      obtain rfl := Except.ok.inj h
      -- the check does not look at the confidence
      exact unit_bind_eq_ok.mpr ⟨hvalid, rfl⟩

theorem factEvent_renamed {fingerprint : String} {fact other : MemoryFact} (hid : other.id = fact.id)
    {event : NewEvent MemoryEvent} (h : factEvent provider input fingerprint fact = .ok event) :
    ∃ event', factEvent provider input fingerprint other = .ok event' ∧ event'.id = event.id := by
  have htuple : factTuple provider input fingerprint other = factTuple provider input fingerprint fact := by
    rw [factTuple, hid, factTuple]
  rw [factEvent] at h
  obtain ⟨text, htext, h⟩ := bind_eq_ok.mp h
  obtain ⟨id, htrimmed, h⟩ := bind_eq_ok.mp h
  obtain ⟨htype, hoccurred, rfl⟩ := NewEvent.new_eq_ok.mp h
  rw [factEvent, htuple, htext, ok_bind, htrimmed, ok_bind]
  exact ⟨_, NewEvent.new_eq_ok.mpr ⟨htype, hoccurred, rfl⟩, rfl⟩

def LinkedTo (mentions : List (ExtractedEntity × LinkDecision)) (localId : Text) (id : EntityId) : Prop :=
  ∃ mention ∈ mentions, mention.1.localId = localId ∧ mention.2.entityId = some id

theorem linkedTo_iff {mentions : List (ExtractedEntity × LinkDecision)} {byMention : BTreeMap Text LinkDecision}
    (hmap : MapOf mentions byMention) {localId : Text} :
    LinkedTo mentions localId id ↔ ∃ d, byMention[localId]? = some d ∧ d.entityId = some id := by
  constructor
  · rintro ⟨mention, hm, hlocal, hid⟩
    exact ⟨mention.2, (hmap localId mention.2).mpr ⟨mention, hm, hlocal, rfl⟩, hid⟩
  · rintro ⟨d, hd, hid⟩
    obtain ⟨mention, hm, hlocal, rfl⟩ := (hmap localId d).mp hd
    exact ⟨mention, hm, hlocal, hid⟩

theorem relationEvents_repeated {fingerprint : String} {before after : BTreeMap Text LinkDecision}
    {relations : List ExtractedRelation} {events : List (NewEvent MemoryEvent)} {rejected : List RejectedRelation}
    (h : relationEvents provider input fingerprint before relations = .ok (events, rejected))
    (hlinked : ∀ relation ∈ relations, ∃ source target, after[relation.source]? = some source ∧
      after[relation.target]? = some target ∧ ∀ s t, source.entityId = some s → target.entityId = some t →
        ∃ source' target', before[relation.source]? = some source' ∧ before[relation.target]? = some target' ∧
          source'.entityId = some s ∧ target'.entityId = some t) :
    ∃ events' rejected', relationEvents provider input fingerprint after relations = .ok (events', rejected') ∧
      (events'.map (·.id)).Sublist (events.map (·.id)) := by
  have hrun := relationEvents_eq_ok.mp h
  clear h
  simp only [relationEvents_eq_ok]
  induction hrun with
  | done => exact ⟨[], [], .done, List.nil_sublist _⟩
  | @recorded relation rest source' target' s t fact event others later hsource' htarget' hs' ht' hfact hevent _ ih =>
      obtain ⟨⟨source, target, hsource, htarget, hkept⟩, hrest⟩ := List.forall_mem_cons.mp hlinked
      obtain ⟨events', rejected', hevents', hsub⟩ := ih hrest
      by_cases hboth : source.entityId = none ∨ target.entityId = none
      · exact ⟨events', _, .rejected hsource htarget hboth hevents', hsub.trans (List.sublist_cons_self _ _)⟩
      · obtain ⟨sourceId, targetId, hs, ht⟩ := exists_ids hboth
        obtain ⟨first, second, hfirst, hsecond, hfirstId, hsecondId⟩ := hkept sourceId targetId hs ht
        obtain rfl := Option.some.inj (hsource'.symm.trans hfirst)
        obtain rfl := Option.some.inj (htarget'.symm.trans hsecond)
        obtain rfl := Option.some.inj (hs'.symm.trans hfirstId)
        obtain rfl := Option.some.inj (ht'.symm.trans hsecondId)
        obtain ⟨event', hevent', hid⟩ := @factEvent_renamed _ _ _ fact
          (fact.withConfidence (minConfidence relation.confidence source.score target.score)) rfl _ hevent
        refine ⟨event' :: events', rejected',
          .recorded hsource htarget hs ht (buildFact_rescored hfact source target) hevent' hevents', ?_⟩
        rw [List.map_cons, List.map_cons, hid]
        exact hsub.cons_cons _
  | @rejected relation rest source' target' others later hsource' htarget' hnone _ ih =>
      obtain ⟨⟨source, target, hsource, htarget, hkept⟩, hrest⟩ := List.forall_mem_cons.mp hlinked
      obtain ⟨events', rejected', hevents', hsub⟩ := ih hrest
      refine ⟨events', _, .rejected hsource htarget ?_ hevents', hsub⟩
      by_contra hboth
      obtain ⟨sourceId, targetId, hs, ht⟩ := exists_ids hboth
      obtain ⟨first, second, hfirst, hsecond, hfirstId, hsecondId⟩ := hkept sourceId targetId hs ht
      rw [Option.some.inj (hsource'.symm.trans hfirst), Option.some.inj (htarget'.symm.trans hsecond), hfirstId,
        hsecondId] at hnone
      obtain hnone | hnone := hnone <;> cases hnone

variable {output : ExtractionOutput} {p : ExtractionPlan} {linker' : EntityLinker}

/-- What lets a plan be made again over the nodes: they can be catalogued, every mention finds its entity in them,
and a relation between two entities is one that the plan has. -/
structure Repeatable (unicode : Unicode) (policy : LinkPolicy) (input : ExtractionInput) (output : ExtractionOutput)
    (p : ExtractionPlan) (nodes : List MemoryNode) : Prop where
  catalog : ∀ node ∈ nodes, CatalogValid node
  settled : ∀ mention ∈ output.entities.items, Settled unicode policy input nodes mention
  kept : ∀ relation ∈ output.relations.items, ∀ source ∈ output.entities.items, ∀ target ∈ output.entities.items,
    source.localId = relation.source → target.localId = relation.target → ∀ s t,
      Picks unicode policy input nodes source s → Picks unicode policy input nodes target t →
        LinkedTo (mentionsOf output p) relation.source s ∧ LinkedTo (mentionsOf output p) relation.target t

theorem exists_links (hc : Catalogued unicode nodes linker') (hpolicy : ∀ mention ∈ output.entities.items,
    policy.minimumScore ≤ 10000 ∧ policy.minimumMargin ≤ 10000)
    (h : ∀ mention ∈ output.entities.items, Settled unicode policy input nodes mention) :
    ∃ links, linkEntities unicode linker' input policy output.entities.items = .ok links ∧
      ∀ mention ∈ output.entities.items.zip links, Kept unicode policy input nodes mention.1 mention.2 := by
  have hlink (mention : ExtractedEntity) (hm : mention ∈ output.entities.items) :=
    link_kept hc (hpolicy mention hm).1 (hpolicy mention hm).2 (h mention hm)
  obtain ⟨links, hlinks⟩ := exists_linkEntities fun mention hm => (hlink mention hm).imp fun d hd => hd.1
  refine ⟨links, hlinks, fun pair hpair => ?_⟩
  obtain ⟨hm, hd⟩ := (linkEntities_spec hlinks).mp hpair
  obtain ⟨d, hlinked, hkept⟩ := hlink pair.1 hm
  rwa [Except.ok.inj (hd.symm.trans hlinked)]

theorem mentions_nodup (houtput : SoundOutput output input) {links : List LinkDecision}
    (hlinks : links.length = output.entities.items.length) :
    ((output.entities.items.zip links).map (·.1.localId)).Nodup := by
  have hids := houtput.mentions
  rwa [← List.map_fst_zip hlinks.ge, List.map_map] at hids

theorem endpoints_kept (houtput : SoundOutput output input) (h : Repeatable unicode policy input output p nodes)
    {links : List LinkDecision} (hlinks : links.length = output.entities.items.length)
    (hkept : ∀ mention ∈ output.entities.items.zip links, Kept unicode policy input nodes mention.1 mention.2)
    {before after : BTreeMap Text LinkDecision} (hbefore : MapOf (mentionsOf output p) before)
    (hafter : MapOf (output.entities.items.zip links) after) {relation : ExtractedRelation}
    (hr : relation ∈ output.relations.items) : ∃ source target, after[relation.source]? = some source ∧
      after[relation.target]? = some target ∧ ∀ s t, source.entityId = some s → target.entityId = some t →
        ∃ source' target', before[relation.source]? = some source' ∧ before[relation.target]? = some target' ∧
          source'.entityId = some s ∧ target'.entityId = some t := by
  have hmention {localId : Text} (hid : localId ∈ output.entities.items.map (·.localId)) :
      ∃ mention ∈ output.entities.items.zip links, mention.1.localId = localId := by
    rw [← List.map_fst_zip hlinks.ge, List.map_map] at hid
    exact List.mem_map.mp hid
  have hsound := houtput.each relation hr
  obtain ⟨source, hs, hsource⟩ := hmention hsound.source
  obtain ⟨target, ht, htarget⟩ := hmention hsound.target
  refine ⟨source.2, target.2, (hafter _ _).mpr ⟨source, hs, hsource, rfl⟩, (hafter _ _).mpr ⟨target, ht, htarget, rfl⟩,
    fun s t hsid htid => ?_⟩
  obtain ⟨hlinked, hlinked'⟩ := h.kept relation hr source.1 (List.of_mem_zip hs).1 target.1 (List.of_mem_zip ht).1
    hsource htarget s t ((hkept source hs).picked s hsid) ((hkept target ht).picked t htid)
  obtain ⟨source', hbefore', hsame⟩ := (linkedTo_iff hbefore).mp hlinked
  obtain ⟨target', hbefore'', hsame'⟩ := (linkedTo_iff hbefore).mp hlinked'
  exact ⟨source', target', hbefore', hbefore'', hsame, hsame'⟩

theorem buildPlan_repeated (houtput : SoundOutput output input) (hc : Catalogued unicode nodes linker')
    (hbuilt : buildPlan unicode policy provider input linker output = .ok p)
    (h : Repeatable unicode policy input output p nodes) :
    ∃ p', buildPlan unicode policy provider input linker' output = .ok p' ∧
      p'.events.items.map (·.id) ⊆ p.events.items.map (·.id) := by
  rw [buildPlan] at hbuilt
  obtain ⟨links, hlinks, hbuilt⟩ := bind_eq_ok.mp hbuilt
  obtain ⟨created, -, hbuilt⟩ := bind_eq_ok.mp hbuilt
  obtain ⟨first, -, hbuilt⟩ := bind_eq_ok.mp hbuilt
  obtain ⟨⟨second, rejected⟩, hsecond, hbuilt⟩ := bind_eq_ok.mp hbuilt
  obtain ⟨events, hevents, hbuilt⟩ := bind_eq_ok.mp hbuilt
  obtain rfl := Except.ok.inj hbuilt
  rw [Vec.of_eq_ok] at hevents
  obtain ⟨links', hlinks', hkept⟩ := exists_links hc (fun mention hm =>
    (exists_link hlinks hm).elim fun d hd => link_policy hd) h.settled
  have hmap := mentionMap_mapOf (mentions_nodup houtput (linkEntities_length hlinks))
  have hmap' := mentionMap_mapOf (mentions_nodup houtput (linkEntities_length hlinks'))
  obtain ⟨second', rejected', hsecond', hsub⟩ := relationEvents_repeated hsecond fun relation hr =>
    endpoints_kept houtput h (linkEntities_length hlinks') hkept hmap hmap' hr
  have hfits : second'.length < 2 ^ 63 := by
    have hlength := hsub.length_le
    have hfits := events.fits
    rw [List.length_map, List.length_map] at hlength
    rw [hevents, List.length_append] at hfits
    omega
  refine ⟨⟨provider, input.source, ⟨second', hfits⟩, links', rejected'⟩, ?_, ?_⟩
  · have hcreated := @createNodes_of_known provider input _ ∅ fun mention hm => (hkept mention hm).known
    have hnone : valuesOf (∅ : BTreeMap EntityId MemoryNode) = [] := rfl
    have hvec : Vec.of ([] ++ second') = .ok ⟨second', hfits⟩ := Vec.of_eq_ok.mpr rfl
    rw [buildPlan, hlinks', ok_bind]
    dsimp only
    rw [hcreated, ok_bind, hnone, nodeEvents, ok_bind, hsecond', ok_bind]
    dsimp only
    rw [hvec, ok_bind]
  · intro id hid
    rw [hevents, List.map_append]
    exact List.mem_append_right _ (hsub.subset hid)

theorem LinkedTo.unique {mentions : List (ExtractedEntity × LinkDecision)} {byMention : BTreeMap Text LinkDecision}
    (hmap : MapOf mentions byMention) {localId : Text} {other : EntityId} (h : LinkedTo mentions localId id)
    (ho : LinkedTo mentions localId other) : id = other := by
  obtain ⟨d, hd, hid⟩ := (linkedTo_iff hmap).mp h
  obtain ⟨d', hd', hother⟩ := (linkedTo_iff hmap).mp ho
  obtain rfl := Option.some.inj (hd.symm.trans hd')
  exact Option.some.inj (hid.symm.trans hother)

theorem link_created_fresh (hc : Catalogued unicode nodes linker) {d : LinkDecision}
    (h : link unicode linker mention input policy = .ok d) (hcreated : d.method = .created) :
    ∃ id, d.entityId = some id ∧ id ∉ nodes.map (·.id) := by
  cases link_linked hc h with
  | known => cases hcreated
  | named hstable hfresh => exact ⟨_, rfl, hfresh⟩
  | resolved hstable hranked hresolved =>
      cases hresolved with
      | @selected best others hlist =>
          exact absurd hcreated (hranked.best best (hlist ▸ List.mem_cons_self)).matching.2.1
      | ambiguous | unresolved => cases hcreated
      | @created id _ _ _ hfresh => exact ⟨id, rfl, hfresh⟩

theorem settled_of_link (hc : Catalogued unicode nodes linker) (hcreate : policy.createUnmatched = true)
    {d : LinkDecision} (h : link unicode linker mention input policy = .ok d) (hknown : d.method ≠ .created) :
    Settled unicode policy input nodes mention := by
  cases link_linked hc h with
  | @known node hstable hn hkind =>
      refine ⟨fun id hid => ⟨node, hn, ?_, hkind⟩, fun hnone => ?_⟩
      · exact Option.some.inj (hstable.symm.trans hid)
      · cases hstable.symm.trans hnone
  | named => exact absurd rfl hknown
  | @resolved candidates _ hstable hranked hresolved =>
      refine ⟨fun id hid => (by cases hstable.symm.trans hid), fun _ => ?_⟩
      have hmatched {best : LinkCandidate} {others : List LinkCandidate} (hlist : candidates = best :: others)
          (hreaches : Reaches policy best) : ∃ id score method,
            Offers nodes mention input (Matches unicode mention) id score method ∧ policy.minimumScore.toNat ≤ score :=
        ⟨_, _, _, (hranked.best best (hlist ▸ List.mem_cons_self)).offered, hreaches⟩
      cases hresolved with
      | selected hlist hreaches | ambiguous hlist hreaches => exact hmatched hlist hreaches
      | unresolved _ hkept =>
          rw [hcreate] at hkept
          cases hkept
      | created => exact absurd rfl hknown

theorem entity_of_picks (hc : Catalogued unicode nodes linker) (hnodup : (nodes.map (·.id)).Nodup) {d : LinkDecision}
    (h : link unicode linker mention input policy = .ok d) (hpicks : Picks unicode policy input nodes mention id) :
    d.entityId = some id := by
  cases hpicks with
  | named hstable =>
      cases link_linked hc h with
      | known hnamed | named hnamed => exact hnamed.symm.trans hstable
      | resolved hnone => cases hstable.symm.trans hnone
  | @matched best others hstable hranked hreaches hclear =>
      cases link_linked hc h with
      | known hnamed | named hnamed => cases hstable.symm.trans hnamed
      | resolved _ hranked' hresolved =>
          obtain rfl := Ranked.unique hranked hranked' fun id score score' method method' ho ho' =>
            method_of_offers hnodup ho ho'
          cases hresolved with
          | selected hlist =>
              obtain ⟨rfl, rfl⟩ := List.cons.inj hlist
              rfl
          | ambiguous hlist _ hunclear =>
              obtain ⟨rfl, rfl⟩ := List.cons.inj hlist
              exact absurd hclear hunclear
          | unresolved hlow | created hlow => exact absurd hreaches (hlow best rfl)

section Again

variable {p' : ExtractionPlan} {nodes' : List MemoryNode} {created created' : List MemoryNode}
  {first second first' second' : List (NewEvent MemoryEvent)} {facts facts' : List MemoryFact}

theorem upserts_of_id (h : MadeOf nodes provider input output p created first second)
    (h' : MadeOf nodes' provider input output p' created' first' second')
    (hhash : CollisionFree (hashedTuples provider input output p ++ hashedTuples provider input output p'))
    (hids : p'.events.items.map (·.id) ⊆ p.events.items.map (·.id)) {node : MemoryNode} (hn : node ∈ created') :
    ∃ other, Upserts p other ∧ other.id = node.id := by
  obtain ⟨event, he, hproposes⟩ := Pairings.exists_right h'.nodeEvents node hn
  obtain ⟨event', he', hid⟩ := List.mem_map.mp (hids (List.mem_map_of_mem (h'.events ▸ List.mem_append_left _ he)))
  have hsplit := he'
  rw [h.events] at hsplit
  obtain hfirst | hsecond := List.mem_append.mp hsplit
  · obtain ⟨other, ho, hproposes'⟩ := Pairings.exists_left h.nodeEvents event' hfirst
    refine ⟨other, ⟨event', he', hproposes'.payload⟩, ?_⟩
    have hname := congrArg TextId.toString hid
    rw [hproposes'.name, hproposes.name] at hname
    have htuple := hhash.name_inj _ (List.mem_append_left _ (node_hashed h ho))
      (List.mem_append_right _ (node_hashed h' hn)) hname
    simp only [nodeTuple, List.cons.injEq, true_and, and_true] at htuple
    exact TextId.ext (Text.ext htuple)
  · obtain ⟨relation, -, fact, hfact⟩ := Pairings.exists_left h.factEvents event' hsecond
    have hname := congrArg TextId.toString hid
    rw [hproposes.name, hfact.name] at hname
    exact absurd hname.symm (nodeName_ne_factName _ _)

theorem records_of_id (h : MadeOf nodes provider input output p created first second)
    (hrecords : Records provider input output p facts second)
    (h' : MadeOf nodes' provider input output p' created' first' second')
    (hrecords' : Records provider input output p' facts' second')
    (hhash : CollisionFree (hashedTuples provider input output p ++ hashedTuples provider input output p'))
    (hids : p'.events.items.map (·.id) ⊆ p.events.items.map (·.id)) {fact : MemoryFact} (hf : fact ∈ facts') :
    ∃ other ∈ facts, other.id = fact.id := by
  obtain ⟨event, he, relation, hproposes⟩ := Pairings.exists_right hrecords'.events fact hf
  obtain ⟨event', he', hid⟩ := List.mem_map.mp (hids (List.mem_map_of_mem (h'.events ▸ List.mem_append_right _ he)))
  rw [h.events] at he'
  obtain hfirst | hsecond := List.mem_append.mp he'
  · obtain ⟨node, -, hnode⟩ := Pairings.exists_left h.nodeEvents event' hfirst
    have hname := congrArg TextId.toString hid
    rw [hnode.name, hproposes.name] at hname
    exact absurd hname (nodeName_ne_factName _ _)
  · obtain ⟨other, ho, _, hproposes'⟩ := Pairings.exists_left hrecords.events event' hsecond
    refine ⟨other, ho, ?_⟩
    have hname := congrArg TextId.toString hid
    rw [hproposes'.name, hproposes.name] at hname
    have htuple := hhash.name_inj _ (List.mem_append_left _ (fact_hashed h hrecords ho))
      (List.mem_append_right _ (fact_hashed h' hrecords' hf)) hname
    simp only [factTuple, List.cons.injEq, true_and, and_true] at htuple
    exact TextId.ext (Text.ext htuple)

theorem between_of_id (h : MadeOf nodes provider input output p created first second)
    (hrecords : Records provider input output p facts second)
    (h' : MadeOf nodes' provider input output p' created' first' second')
    (hrecords' : Records provider input output p' facts' second') (houtput : SoundOutput output input)
    (hhash : CollisionFree (hashedTuples provider input output p ++ hashedTuples provider input output p'))
    (hids : p'.events.items.map (·.id) ⊆ p.events.items.map (·.id)) {relation : ExtractedRelation}
    (hr : relation ∈ output.relations.items) {fact : MemoryFact} (hf : fact ∈ facts')
    (hbetween : Between provider input (mentionsOf output p') relation fact) :
    LinkedTo (mentionsOf output p) relation.source fact.source ∧
      LinkedTo (mentionsOf output p) relation.target fact.target := by
  obtain ⟨other, ho, hid⟩ := records_of_id h hrecords h' hrecords' hhash hids hf
  obtain ⟨relation', hr', hbetween'⟩ := Pairings.exists_left hrecords.relations other ho
  have hmem := List.mem_of_mem_filter hr'
  have hname := congrArg TextId.toString hid
  rw [hbetween'.recorded.name, hbetween.recorded.name] at hname
  have htuple := hhash.name_inj _ (List.mem_append_left _ (relation_hashed h.mentions hmem hbetween'))
    (List.mem_append_right _ (relation_hashed h'.mentions hr hbetween)) hname
  simp only [relationTuple, List.cons.injEq, true_and, and_true] at htuple
  obtain ⟨hlocal, hsource, -, htarget⟩ := htuple
  obtain rfl := List.inj_on_of_nodup_map houtput.relations hmem hr (Text.ext hlocal)
  rw [← TextId.ext (Text.ext hsource), ← TextId.ext (Text.ext htarget)]
  exact ⟨hbetween'.source, hbetween'.target⟩

theorem mem_created_of_upserts (h : MadeOf nodes provider input output p created first second) {node : MemoryNode}
    (hn : Upserts p node) : node ∈ created := by
  obtain ⟨event, he, hpayload⟩ := hn
  rw [h.events] at he
  obtain hfirst | hsecond := List.mem_append.mp he
  · obtain ⟨other, ho, hproposes⟩ := Pairings.exists_left h.nodeEvents event hfirst
    obtain rfl := MemoryEvent.nodeUpserted.inj (hpayload.symm.trans hproposes.payload)
    exact ho
  · obtain ⟨relation, -, fact, hfact⟩ := Pairings.exists_left h.factEvents event hsecond
    cases hpayload.symm.trans hfact.payload

theorem buildPlan_links (h : buildPlan unicode policy provider input linker output = .ok p) :
    linkEntities unicode linker input policy output.entities.items = .ok p.links := by
  rw [buildPlan] at h
  obtain ⟨links, hlinks, h⟩ := bind_eq_ok.mp h
  obtain ⟨created, -, h⟩ := bind_eq_ok.mp h
  obtain ⟨first, -, h⟩ := bind_eq_ok.mp h
  obtain ⟨⟨second, rejected⟩, -, h⟩ := bind_eq_ok.mp h
  obtain ⟨events, -, h⟩ := bind_eq_ok.mp h
  obtain rfl := Except.ok.inj h
  exact hlinks

theorem repeatable_of_ids (hcreate : policy.createUnmatched = true) (hinput : SoundInput input)
    (houtput : SoundOutput output input) (hc : Catalogued unicode nodes' linker') (hadmissible : Admissible nodes')
    (h : MadeOf nodes provider input output p created first second)
    (hbuilt : buildPlan unicode policy provider input linker' output = .ok p')
    (hhash : CollisionFree (hashedTuples provider input output p ++ hashedTuples provider input output p'))
    (hids : p'.events.items.map (·.id) ⊆ p.events.items.map (·.id))
    (hshown : ∀ node, Upserts p node → node.id ∈ nodes'.map (·.id)) :
    Repeatable unicode policy input output p nodes' := by
  obtain ⟨created', first', second', h'⟩ := buildPlan_madeOf hinput houtput hc hbuilt
  obtain ⟨facts, hrecords⟩ := exists_records h
  obtain ⟨facts', hrecords'⟩ := exists_records h'
  have hlinks := buildPlan_links hbuilt
  have hdecided : ∀ mention ∈ mentionsOf output p', Decided nodes' mention.2 := fun mention hm =>
    link_decided hc ((linkEntities_spec hlinks).mp hm).2
  have hknown {mention : ExtractedEntity} (hm : mention ∈ output.entities.items) {d : LinkDecision}
      (hd : link unicode linker' mention input policy = .ok d) : d.method ≠ .created := by
    intro hcreated
    obtain ⟨id, hid, hfresh⟩ := link_created_fresh hc hd hcreated
    obtain ⟨node, hupserts, rfl, -⟩ := (buildPlan_nodes hbuilt).absorbed mention hm id ⟨d, hd, hcreated, hid⟩
    obtain ⟨other, ho, hsame⟩ := upserts_of_id h h' hhash hids (mem_created_of_upserts h' hupserts)
    exact hfresh (hsame ▸ hshown other ho)
  have hlinked {mention : ExtractedEntity} (hm : mention ∈ output.entities.items) {id : EntityId}
      (hpicks : Picks unicode policy input nodes' mention id) :
      LinkedTo (mentionsOf output p') mention.localId id := by
    obtain ⟨d, hd⟩ := exists_link hlinks hm
    exact ⟨(mention, d), (linkEntities_spec hlinks).mpr ⟨hm, hd⟩, rfl,
      entity_of_picks hc hadmissible.distinct hd hpicks⟩
  refine ⟨fun node hn => (hadmissible.valid node hn).2, fun mention hm => ?_,
    fun relation hr source hs target ht hsource htarget s t hpicks hpicks' => ?_⟩
  · obtain ⟨d, hd⟩ := exists_link hlinks hm
    exact settled_of_link hc hcreate hd (hknown hm hd)
  · have hfirst := hlinked hs hpicks
    have hsecond := hlinked ht hpicks'
    rw [hsource] at hfirst
    rw [htarget] at hsecond
    obtain ⟨d, hd, hsid⟩ := (linkedTo_iff h'.mentions).mp hfirst
    obtain ⟨d', hd', htid⟩ := (linkedTo_iff h'.mentions).mp hsecond
    have hclosed : ¬ LeftOpen (mentionsOf output p') relation := by
      rw [leftOpen_iff h'.mentions hdecided hd hd', hsid, htid]
      exact not_or_intro (Option.some_ne_none _) (Option.some_ne_none _)
    obtain ⟨fact, hf, hbetween⟩ := Pairings.exists_right hrecords'.relations relation
      (List.mem_filter.mpr ⟨hr, decide_eq_true hclosed⟩)
    have hkept := between_of_id h hrecords h' hrecords' houtput hhash hids hr hf hbetween
    rwa [LinkedTo.unique h'.mentions hbetween.source hfirst,
      LinkedTo.unique h'.mentions hbetween.target hsecond] at hkept

end Again

theorem upserts_shown {held after : MemoryProjection} (hheld : Valid held)
    {created : List MemoryNode} {first second : List (NewEvent MemoryEvent)}
    (h : MadeOf nodes provider input output p created first second) {committed : List (StoredEvent MemoryEvent)}
    (hproposed : committed.map proposal = p.events.items) (hafter : applyEach committed held = .ok after)
    {clock : ProjectionClock} (hclock : input.recordedAt ≤ clock.knownAt) {node : MemoryNode} (hn : Upserts p node) :
    node.id ∈ (view after clock).nodes.map (·.id) := by
  obtain ⟨hvalid, hrevisions⟩ := revisionsIn_applyEach hheld hafter
  obtain ⟨event, he, hproposes⟩ := Pairings.exists_right h.nodeEvents node (mem_created_of_upserts h hn)
  have hmem : event ∈ committed.map proposal := by
    rw [hproposed, h.events]
    exact List.mem_append_left _ he
  obtain ⟨⟨metadata, payload⟩, hstored, rfl⟩ := List.mem_map.mp hmem
  obtain rfl : payload = .nodeUpserted node := hproposes.payload
  have hrevision : ⟨node, metadata.recordedAt, metadata.globalPosition⟩ ∈ revisionsIn after node.id := by
    rw [hrevisions]
    refine List.mem_append_right _ (List.mem_filterMap.mpr ⟨_, hstored, ?_⟩)
    exact if_pos rfl
  have hrecorded : metadata.recordedAt = input.recordedAt := hproposes.stamped.recordedAt
  rw [Projection.History.view_eq hvalid, Projection.History.mem_visibleNodes_ids hvalid]
  by_cases hid : node.id ∈ after.nodes.map NodeHistory.id
  · obtain ⟨history, hh, hsame⟩ := List.mem_map.mp hid
    rw [← hsame, revisionsIn_of_mem hvalid hh] at hrevision
    exact ⟨history, hh, hsame, _, hrevision, hrecorded.trans_le hclock⟩
  · rw [revisionsIn_of_not_mem hid] at hrevision
    exact absurd hrevision List.not_mem_nil

theorem planWithLinker_eq {provider : ExtractionProvider} (houtput : provider.extract input = .ok output)
    (h : planWithLinker unicode policy provider input linker = .ok p) :
    planWithLinker unicode policy provider input linker' =
      buildPlan unicode policy provider.name input linker' output := by
  rw [planWithLinker] at h
  obtain ⟨hinput, h⟩ := unit_bind_eq_ok.mp h
  obtain ⟨hname, h⟩ := unit_bind_eq_ok.mp h
  obtain ⟨found, hfound, h⟩ := bind_eq_ok.mp h
  have hsame := hfound
  rw [extracted, houtput] at hsame
  obtain rfl := Except.ok.inj hsame
  obtain ⟨hvalidated, -⟩ := unit_bind_eq_ok.mp h
  rw [planWithLinker, hinput, ok_bind, hname, ok_bind, hfound, ok_bind, hvalidated, ok_bind]

def Repeats (unicode : Unicode) (policy : LinkPolicy) (provider : ExtractionProvider) (input : ExtractionInput)
    (view : MemoryView) (log : List (StoredEvent MemoryEvent)) : Prop :=
  ∃ p, plan unicode policy provider input view = .ok p ∧
    ∀ event ∈ p.events.items, event.id ∈ log.map (·.metadata.id)

/-- What is planned again has no hash in common with other tuples, nor an identifier with older events. -/
structure Distinguished (provider : Text) (input : ExtractionInput) (output : ExtractionOutput) (p p' : ExtractionPlan)
    (log : List (StoredEvent MemoryEvent)) : Prop where
  hashes : CollisionFree (hashedTuples provider input output p ++ hashedTuples provider input output p')
  events : ∀ event ∈ p'.events.items, event.id ∉ log.map (·.metadata.id)

/-- An extraction repeats itself if the view of what it has committed lets it, and, older events of the same
identifiers apart, only then. -/
theorem extraction_repeats (unicode : Unicode) (policy : LinkPolicy) (hcreate : policy.createUnmatched = true)
    (provider : ExtractionProvider) (input : ExtractionInput) (handed : List MemoryFact) (held : MemoryProjection)
    (hheld : Obtained handed held) (log : Vec (StoredEvent MemoryEvent)) (hlog : Lawful Continues log.items)
    (clock : ProjectionClock) (output : ExtractionOutput) (houtput : provider.extract input = .ok output)
    (p : ExtractionPlan) (hplan : plan unicode policy provider input (view held clock) = .ok p) (stream : StreamId)
    (expected : ExpectedVersion) (committed : List (StoredEvent MemoryEvent)) (store : InMemoryStore MemoryEvent)
    (hcommitted : append stream expected p.events.items (ofLog log.items) = .ok committed store)
    (after : MemoryProjection) (hafter : applyEach committed held = .ok after) (clock' : ProjectionClock)
    (hclock : input.recordedAt ≤ clock'.knownAt) :
    (Repeatable unicode policy input output p (view after clock').nodes →
      Repeats unicode policy provider input (view after clock') (log.items ++ committed)) ∧
    ((∀ p', plan unicode policy provider input (view after clock') = .ok p' →
        Distinguished provider.name input output p p' log.items) →
      Repeats unicode policy provider input (view after clock') (log.items ++ committed) →
        Repeatable unicode policy input output p (view after clock').nodes) := by
  have hvalid := hheld.valid.1
  obtain ⟨linker, hlinker, hrun⟩ := bind_eq_ok.mp hplan
  obtain ⟨hvalidated, hbuilt⟩ := planWithLinker_built houtput hrun
  have hinput := planWithLinker_input hrun
  have hsound := soundOutput_of_validate hvalidated
  obtain ⟨created, first, second, hmade⟩ := buildPlan_madeOf hinput hsound (fromView_catalogued hlinker) hbuilt
  have hproposed := proposed_of_append hlog hcommitted
  have hids : committed.map (·.metadata.id) = p.events.items.map (·.id) := by
    rw [← hproposed, List.map_map]
    rfl
  have hagain (linker' : EntityLinker) (hlinker' : fromView unicode (view after clock') = .ok linker') :
      plan unicode policy provider input (view after clock') =
        buildPlan unicode policy provider.name input linker' output := by
    rw [plan, hlinker', ok_bind]
    exact planWithLinker_eq houtput hrun
  have hlast := (revisionsIn_applyEach hvalid hafter).1
  constructor
  · intro hrepeatable
    obtain ⟨linker', hlinker'⟩ := exists_fromView.mpr ((admissible_view_iff hlast).mpr hrepeatable.catalog)
    obtain ⟨p', hbuilt', hsub⟩ := buildPlan_repeated hsound (fromView_catalogued hlinker') hbuilt hrepeatable
    refine ⟨p', (hagain linker' hlinker').trans hbuilt', fun event he => ?_⟩
    rw [List.map_append, hids]
    exact List.mem_append_right _ (hsub (List.mem_map_of_mem he))
  · rintro hdistinguished ⟨p', hplan', hrecorded⟩
    obtain ⟨linker', hlinker', -⟩ := bind_eq_ok.mp hplan'
    have hbuilt' := hplan'
    rw [hagain linker' hlinker'] at hbuilt'
    obtain ⟨hhash, hnew⟩ := hdistinguished p' hplan'
    refine repeatable_of_ids hcreate hinput hsound (fromView_catalogued hlinker')
      (exists_fromView.mp ⟨linker', hlinker'⟩)
      hmade hbuilt' hhash (fun id hid => ?_) fun node hn => upserts_shown hvalid hmade hproposed hafter hclock hn
    obtain ⟨event, he, rfl⟩ := List.mem_map.mp hid
    have hin := hrecorded event he
    rw [List.map_append, hids] at hin
    exact (List.mem_append.mp hin).resolve_left (hnew event he)

def recognises (mention : ExtractedEntity) (nodes : List MemoryNode) : Bool :=
  nodes.all (fun node => decide (CatalogValid node)) && nodes.any fun node =>
    decide ((normalized .ascii mention.kind.str, normalized .ascii mention.label.str) = labelName .ascii node) &&
      decide (LinkPolicy.default.minimumScore.toNat ≤ scoreOf node mention message 9000)

theorem repeatable_of_recognises (hmentions : output.entities.items = [mention])
    (hrelations : output.relations.items = [])
    (hstable : mention.stableId = none) (h : recognises mention nodes = true) :
    Repeatable .ascii .default message output p nodes := by
  obtain ⟨hcatalog, hany⟩ := (Bool.and_eq_true _ _).mp h
  obtain ⟨node, hn, hmatch⟩ := List.any_eq_true.mp hany
  obtain ⟨hlabel, hscore⟩ := (Bool.and_eq_true _ _).mp hmatch
  refine ⟨fun other ho => of_decide_eq_true (List.all_eq_true.mp hcatalog other ho), fun other ho => ?_,
    fun relation hr => ?_⟩
  · rw [hmentions] at ho
    obtain rfl := List.mem_singleton.mp ho
    refine ⟨fun id hid => ?_, fun _ =>
      ⟨node.id, _, _, ⟨node, hn, rfl, 9000, .label, ?_, rfl, rfl⟩, of_decide_eq_true hscore⟩⟩
    · rw [hstable] at hid
      cases hid
    · exact .inl (.inl ⟨of_decide_eq_true hlabel, rfl, rfl⟩)
  · rw [hrelations] at hr
    exact absurd hr List.not_mem_nil

theorem extraction_repeats_honest : ∃ p committed store after,
    plan .ascii .default honest message (view heldNothing surveyClock) = .ok p ∧
    append Common.stream .any p.events.items (ofLog []) = .ok committed store ∧
    applyEach committed heldNothing = .ok after ∧
    Repeats .ascii .default honest message (view after surveyClock) committed := by
  have hany :
      (ingest honest).map (fun run => recognises taskMention (view run.2.2.2 surveyClock).nodes) = .ok true := by
    decide +kernel
  obtain ⟨⟨p, committed, store, after⟩, hrun, hrecognises⟩ := map_eq_ok.mp hany
  obtain ⟨hplan, hcommitted, hafter⟩ := ingest_eq_ok hrun
  obtain ⟨⟨handed, hheld⟩, -⟩ := obtained_applyAll ⟨1, 2⟩ []
  exact ⟨p, committed, store, after, hplan, hcommitted, hafter, (extraction_repeats .ascii .default rfl honest message
    handed heldNothing hheld ⟨[], by decide⟩ lawful_nil surveyClock _ rfl p hplan Common.stream .any committed store
    hcommitted after hafter surveyClock (by decide)).1 (repeatable_of_recognises rfl rfl rfl hrecognises)⟩

def unsureMention : ExtractedEntity :=
  { taskMention with confidence := ⟨5000, by decide⟩ }

def unsure : ExtractionProvider := answering ⟨[unsureMention], by decide⟩

def refusedAgain (output : ExtractionOutput) (p : ExtractionPlan) (after : MemoryProjection) : Bool :=
  decide (CollisionFree (hashedTuples unsure.name message output p)) &&
    !(plan .ascii .default unsure message (view after surveyClock)).isOk

/-- An entity that is created for an unsure mention is not found again but collides with itself. -/
theorem extraction_refused_again : ∃ p committed store after,
    plan .ascii .default unsure message (view heldNothing surveyClock) = .ok p ∧
    append Common.stream .any p.events.items (ofLog []) = .ok committed store ∧
    applyEach committed heldNothing = .ok after ∧
    CollisionFree (hashedTuples unsure.name message ⟨⟨[unsureMention], by decide⟩, ⟨[], by decide⟩⟩ p) ∧
    ¬ Repeats .ascii .default unsure message (view after surveyClock) committed := by
  have hany : (ingest unsure).map (fun run =>
      refusedAgain ⟨⟨[unsureMention], by decide⟩, ⟨[], by decide⟩⟩ run.1 run.2.2.2) = .ok true := by
    decide +kernel
  obtain ⟨⟨p, committed, store, after⟩, hrun, hrefused⟩ := map_eq_ok.mp hany
  obtain ⟨hplan, hcommitted, hafter⟩ := ingest_eq_ok hrun
  obtain ⟨hhash, hagain⟩ := (Bool.and_eq_true _ _).mp hrefused
  refine ⟨p, committed, store, after, hplan, hcommitted, hafter, of_decide_eq_true hhash, ?_⟩
  rintro ⟨p', hplan', -⟩
  dsimp only at hagain
  rw [hplan'] at hagain
  cases hagain

end WeavatrixMemory.Extraction.Repetition
