import WeavatrixMemory.Snapshot.Stores
import WeavatrixMemory.Store.Tracking

namespace WeavatrixMemory.Snapshot.Following

open Error Identity Domain Logs Projection.State Projection.Memory Projection.Invariant Projection.Replay Resume
open Store.EventLog Store.Validators Store.Tracking Generations Stores Codecs.Basic Codecs.Layers

/-- A snapshot that is what a replay of the log gives. -/
def Follows (log : List (StoredEvent MemoryEvent)) (s : ProjectionSnapshot MemoryProjection) : Prop :=
  ∃ seeds p, replayTracked (memory seeds) log = .ok (p, s.cursor) ∧ Alike s.projection p

variable {seeds : Seeds} {log tail : List (StoredEvent MemoryEvent)} {s t : ProjectionSnapshot MemoryProjection}
  {p q : MemoryProjection} {cursor : ReplayCursor}

theorem alike_refl (h : Valid p) : Alike p p := ⟨h, h, rfl⟩

theorem alike_trans {r : MemoryProjection} (hpq : Alike p q) (hqr : Alike q r) : Alike p r :=
  ⟨hpq.left, hqr.right, hpq.data.trans hqr.data⟩

theorem follows_replayed (h : replayTracked (memory seeds) log = .ok (p, cursor)) : Follows log ⟨cursor, p⟩ :=
  ⟨seeds, p, h, alike_refl (replayTracked_replayed h).valid⟩

theorem follows_default (seeds : Seeds) : Follows [] ⟨.default, .default seeds⟩ := @follows_replayed seeds _ _ _ rfl

theorem Follows.lawful (h : Follows log s) : Lawful Continues log ∧ Tracks log s.cursor := by
  obtain ⟨seeds, p, hp, -⟩ := h
  exact replayTracked_lawful hp

theorem fresh_of_lawful (h : Lawful Continues (log ++ tail)) :
    ∀ event ∈ tail, ∀ earlier ∈ log, event.metadata.id ≠ earlier.metadata.id := by
  intro event he earlier hearlier heq
  have hids := (Store.Validators.Lawful.wellFormed h).ids
  rw [show (ofLog (log ++ tail)).events = log ++ tail from rfl, List.map_append, List.nodup_append] at hids
  exact hids.2.2 _ (List.mem_map_of_mem hearlier) _ (List.mem_map_of_mem he) heq.symm

theorem Follows.resumed (h : Follows log s) (hl : Lawful Continues (log ++ tail))
    (hr : resume (memory seeds) s tail = .ok (q, cursor)) : Follows (log ++ tail) ⟨cursor, q⟩ := by
  obtain ⟨other, p, hp, halike⟩ := h
  obtain ⟨p', hp', halike'⟩ := halike.resumed hr
  exact ⟨other, p', replayTracked_append.mpr ⟨⟨p, s.cursor, hp, hp'⟩, fresh_of_lawful hl⟩, halike'⟩

/-- Whenever the whole log can be replayed, a snapshot of its beginning can be resumed, with the same outcome. -/
theorem Follows.replayed (h : Follows log s) (hr : replayTracked (memory seeds) (log ++ tail) = .ok (p, cursor))
    (other : Seeds) : ∃ q, resume (memory other) s tail = .ok (q, cursor) ∧ Alike q p := by
  obtain ⟨first, start, hstart, halike⟩ := h
  obtain ⟨p', hp', hsame⟩ := @replayTracked_seeds _ _ first _ _ hr
  obtain ⟨⟨middle, position, hmiddle, hresume⟩, -⟩ := replayTracked_append.mp hp'
  obtain ⟨rfl, rfl⟩ := Prod.mk.inj (Except.ok.inj (hstart.symm.trans hmiddle))
  obtain ⟨q, hq, hqp⟩ := (Alike.symm halike).resumed hresume
  exact ⟨q, hq, alike_trans (Alike.symm hqp) (Alike.symm hsame)⟩

theorem Follows.loaded (h : Follows log s) (hsame : SameSnapshot SameData t s) (ht : Valid t.projection) :
    Follows log t := by
  obtain ⟨seeds, p, hp, halike⟩ := h
  exact ⟨seeds, p, by rw [hsame.1]; exact hp, ht, halike.right, hsame.2.trans halike.data⟩

end WeavatrixMemory.Snapshot.Following
