import Mathlib.Logic.Function.Basic
import Mathlib.Logic.Relation

namespace Publishing

open Relation

variable {π τ β : Type}

/-- Where a call stands that publishes a file under its final name. -/
inductive Phase
  | looking
  | comparing
  | creating
  | writing
  | syncing
  | renaming
  | dropping
deriving DecidableEq

structure Call (π β : Type) where
  final : π
  content : β
  phase : Phase

/-- The files, the calls under way, and what has been asked for and acknowledged. -/
structure Disk (π τ β : Type) where
  files : π → Option β
  calls : τ → Option (Call π β)
  begun : List (π × β)
  completed : List (π × β)

/-- The final names, those of the temporary files, an empty file, and what a write may leave. -/
structure Names (π τ β : Type) where
  Final : π → Prop
  temporary : π → τ → π
  empty : β
  Part : β → β → Prop

structure Names.Apart (names : Names π τ β) : Prop where
  temporary : ∀ {p q t u}, names.temporary p t = names.temporary q u → p = q ∧ t = u
  final : ∀ p t, ¬ names.Final (names.temporary p t)

def Disk.empty : Disk π τ β := ⟨fun _ => none, fun _ => none, [], []⟩

section Calls

variable [DecidableEq τ]

def Disk.enter (d : Disk π τ β) (t : τ) (call : Call π β) (phase : Phase) : Disk π τ β :=
  { d with calls := Function.update d.calls t (some { call with phase := phase }) }

def Disk.leave (d : Disk π τ β) (t : τ) : Disk π τ β := { d with calls := Function.update d.calls t none }

@[simp] theorem Disk.enter_self (d : Disk π τ β) (t : τ) (call : Call π β) (phase : Phase) :
    (d.enter t call phase).calls t = some { call with phase := phase } := Function.update_self _ _ _

@[simp] theorem Disk.leave_self (d : Disk π τ β) (t : τ) : (d.leave t).calls t = none := Function.update_self _ _ _

@[simp] theorem Disk.enter_enter (d : Disk π τ β) (t : τ) (call other : Call π β) (phase next : Phase) :
    (d.enter t call phase).enter t other next = d.enter t other next := by
  simp only [Disk.enter, Function.update_idem]

@[simp] theorem Disk.enter_leave (d : Disk π τ β) (t : τ) (call : Call π β) (phase : Phase) :
    (d.enter t call phase).leave t = d.leave t := by
  simp only [Disk.enter, Disk.leave, Function.update_idem]

theorem Disk.leave_eq {d : Disk π τ β} {t : τ} (h : d.calls t = none) : d.leave t = d := by
  rw [Disk.leave, Function.update_eq_self_iff.mpr h.symm]

theorem Disk.enter_other (d : Disk π τ β) {t u : τ} (h : u ≠ t) (call : Call π β) (phase : Phase) :
    (d.enter t call phase).calls u = d.calls u := Function.update_of_ne h _ _

@[simp] theorem Disk.enter_files (d : Disk π τ β) (t : τ) (call : Call π β) (phase : Phase) :
    (d.enter t call phase).files = d.files := rfl

theorem Disk.leave_other (d : Disk π τ β) {t u : τ} (h : u ≠ t) : (d.leave t).calls u = d.calls u :=
  Function.update_of_ne h _ _

end Calls

def Disk.put [DecidableEq π] (d : Disk π τ β) (name : π) (file : Option β) : Disk π τ β :=
  { d with files := Function.update d.files name file }

@[simp] theorem Disk.put_calls [DecidableEq π] (d : Disk π τ β) (name : π) (file : Option β) :
    (d.put name file).calls = d.calls := rfl

theorem Disk.put_enter [DecidableEq π] [DecidableEq τ] (d : Disk π τ β) (name : π) (file : Option β) (t : τ)
    (call : Call π β) (phase : Phase) :
    (d.put name file).enter t call phase = (d.enter t call phase).put name file := rfl

theorem Disk.put_leave [DecidableEq π] [DecidableEq τ] (d : Disk π τ β) (name : π) (file : Option β) (t : τ) :
    (d.put name file).leave t = (d.leave t).put name file := rfl

@[simp] theorem Disk.put_put [DecidableEq π] (d : Disk π τ β) (name : π) (file other : Option β) :
    (d.put name file).put name other = d.put name other := by
  simp only [Disk.put, Function.update_idem]

theorem Disk.put_eq [DecidableEq π] {d : Disk π τ β} {name : π} {file : Option β} (h : d.files name = file) :
    d.put name file = d := by
  rw [Disk.put, Function.update_eq_self_iff.mpr h.symm]

theorem Disk.put_comm [DecidableEq π] (d : Disk π τ β) {name other : π} (h : name ≠ other) (file next : Option β) :
    (d.put name file).put other next = (d.put other next).put name file := by
  rw [Disk.put, Disk.put, Disk.put, Disk.put, Function.update_comm h]

def Disk.ask (d : Disk π τ β) (x : π × β) : Disk π τ β := { d with begun := x :: d.begun }

def Disk.acknowledge (d : Disk π τ β) (x : π × β) : Disk π τ β := { d with completed := x :: d.completed }

section Steps

variable [DecidableEq π] [DecidableEq τ]

/-- The steps of the calls, in any order. Each operation can fail, and a call can stop anywhere, also while an
error is on its way out: what it has left in the directory stays. -/
inductive Step (names : Names π τ β) : Disk π τ β → Disk π τ β → Prop
  | begin {d : Disk π τ β} {t : τ} {final : π} {content : β} (hfree : d.calls t = none) (hfinal : names.Final final) :
      Step names d ((d.ask (final, content)).enter t ⟨final, content, .looking⟩ .looking)
  | found {d : Disk π τ β} {t : τ} {call : Call π β} (hcall : d.calls t = some call) (hphase : call.phase = .looking)
      (hfile : d.files call.final ≠ none) : Step names d (d.enter t call .comparing)
  | absent {d : Disk π τ β} {t : τ} {call : Call π β} (hcall : d.calls t = some call) (hphase : call.phase = .looking) :
      Step names d (d.enter t call .creating)
  | same {d : Disk π τ β} {t : τ} {call : Call π β} (hcall : d.calls t = some call) (hphase : call.phase = .comparing)
      (hfile : d.files call.final = some call.content) :
      Step names d ((d.leave t).acknowledge (call.final, call.content))
  | refused {d : Disk π τ β} {t : τ} {call : Call π β} (hcall : d.calls t = some call)
      (hphase : call.phase = .comparing) : Step names d (d.leave t)
  | created {d : Disk π τ β} {t : τ} {call : Call π β} (hcall : d.calls t = some call) (hphase : call.phase = .creating)
      (hfile : d.files (names.temporary call.final t) = none) :
      Step names d ((d.enter t call .writing).put (names.temporary call.final t) (some names.empty))
  | writes {d : Disk π τ β} {t : τ} {call : Call π β} {part : β} (hcall : d.calls t = some call)
      (hphase : call.phase = .writing) (hpart : names.Part part call.content) :
      Step names d (d.put (names.temporary call.final t) (some part))
  | written {d : Disk π τ β} {t : τ} {call : Call π β} (hcall : d.calls t = some call)
      (hphase : call.phase = .writing) :
      Step names d ((d.enter t call .syncing).put (names.temporary call.final t) (some call.content))
  | synced {d : Disk π τ β} {t : τ} {call : Call π β} (hcall : d.calls t = some call) (hphase : call.phase = .syncing) :
      Step names d (d.enter t call .renaming)
  | renamed {d : Disk π τ β} {t : τ} {call : Call π β} {file : β} (hcall : d.calls t = some call)
      (hphase : call.phase = .renaming) (hfile : d.files (names.temporary call.final t) = some file) :
      Step names d ((((d.leave t).put call.final (some file)).put (names.temporary call.final t) none).acknowledge
        (call.final, call.content))
  | failed {d : Disk π τ β} {t : τ} {call : Call π β} (hcall : d.calls t = some call)
      (hphase : call.phase = .creating ∨ call.phase = .writing ∨ call.phase = .syncing ∨ call.phase = .renaming) :
      Step names d (d.enter t call .dropping)
  | dropped {d : Disk π τ β} {t : τ} {call : Call π β} (hcall : d.calls t = some call)
      (hphase : call.phase = .dropping) :
      Step names d ((d.leave t).put (names.temporary call.final t) none)
  | stopped {d : Disk π τ β} {t : τ} {call : Call π β} (hcall : d.calls t = some call) : Step names d (d.leave t)

end Steps

structure Underway (names : Names π τ β) (d : Disk π τ β) (t : τ) (call : Call π β) : Prop where
  final : names.Final call.final
  begun : (call.final, call.content) ∈ d.begun
  whole : call.phase = .syncing ∨ call.phase = .renaming → d.files (names.temporary call.final t) = some call.content

/-- The files under final names are those that calls have asked for, and are whole. -/
structure Sound (names : Names π τ β) (d : Disk π τ β) : Prop where
  underway : ∀ t call, d.calls t = some call → Underway names d t call
  published : ∀ name file, names.Final name → d.files name = some file → (name, file) ∈ d.begun
  named : ∀ name, d.files name ≠ none → names.Final name ∨ ∃ final t, name = names.temporary final t
  completed : ∀ x ∈ d.completed, x ∈ d.begun ∧ names.Final x.1 ∧ d.files x.1 ≠ none

variable {names : Names π τ β} {d e : Disk π τ β} {t : τ} {call : Call π β}

theorem sound_empty : Sound names (.empty : Disk π τ β) where
  underway := fun _ _ hcall => nomatch hcall
  published := fun _ _ _ hfile => nomatch hfile
  named := fun _ hfile => absurd rfl hfile
  completed := fun _ hx => absurd hx List.not_mem_nil

inductive Change [DecidableEq π] (names : Names π τ β) (d e : Disk π τ β) (t : τ) : Prop
  | kept (h : e.files = d.files)
  | scratch {call : Call π β} (hcall : d.calls t = some call) (file : Option β)
      (h : e.files = Function.update d.files (names.temporary call.final t) file)
  | published {call : Call π β} (hcall : d.calls t = some call) (hphase : call.phase = .renaming) {file : β}
      (hfile : d.files (names.temporary call.final t) = some file)
      (h : e.files = Function.update (Function.update d.files call.final (some file))
        (names.temporary call.final t) none)

theorem Names.Apart.ne_temporary (hnames : names.Apart) {name : π} (hfinal : names.Final name) (final : π) (t : τ) :
    name ≠ names.temporary final t := by
  rintro rfl
  exact hnames.final final t hfinal

section Change

variable [DecidableEq π]

theorem Change.other (h : Change names d e t) (hs : Sound names d) (hnames : names.Apart) {final : π} {u : τ}
    (hu : u ≠ t) : e.files (names.temporary final u) = d.files (names.temporary final u) := by
  have hne : ∀ other, names.temporary final u ≠ names.temporary other t := fun other heq =>
    hu (hnames.temporary heq).2
  cases h with
  | kept h => rw [h]
  | scratch hcall file h => rw [h, Function.update_of_ne (hne _)]
  | published hcall hphase hfile h =>
      rw [h, Function.update_of_ne (hne _),
        Function.update_of_ne (hnames.ne_temporary (hs.underway _ _ hcall).final _ _).symm]

theorem Change.final (h : Change names d e t) (hs : Sound names d) (hnames : names.Apart) {name : π}
    (hfinal : names.Final name) :
    e.files name = d.files name ∨ ∃ file, e.files name = some file ∧ (name, file) ∈ d.begun := by
  cases h with
  | kept h => exact .inl (by rw [h])
  | scratch hcall file h => exact .inl (by rw [h, Function.update_of_ne (hnames.ne_temporary hfinal _ _)])
  | @published call hcall hphase file hfile h =>
      rw [h, Function.update_of_ne (hnames.ne_temporary hfinal _ _)]
      by_cases hname : name = call.final
      · subst hname
        have hunder := hs.underway t call hcall
        rw [hunder.whole (.inr hphase)] at hfile
        exact .inr ⟨call.content, by rw [Function.update_self, hfile], hunder.begun⟩
      · exact .inl (Function.update_of_ne hname _ _)

theorem Change.named (h : Change names d e t) (hs : Sound names d) {name : π} (hfile : e.files name ≠ none) :
    names.Final name ∨ ∃ final t, name = names.temporary final t := by
  cases h with
  | kept h => exact hs.named name (h ▸ hfile)
  | @scratch call hcall file h =>
      by_cases hname : name = names.temporary call.final t
      · exact .inr ⟨_, _, hname⟩
      · rw [h, Function.update_of_ne hname] at hfile
        exact hs.named name hfile
  | @published call hcall hphase file hother h =>
      by_cases hname : name = names.temporary call.final t
      · exact .inr ⟨_, _, hname⟩
      · rw [h, Function.update_of_ne hname] at hfile
        by_cases hfinal : name = call.final
        · exact .inl (hfinal ▸ (hs.underway t call hcall).final)
        · rw [Function.update_of_ne hfinal] at hfile
          exact hs.named name hfile

theorem Change.kept_final (h : Change names d e t) (hs : Sound names d) (hnames : names.Apart) {name : π}
    (hfinal : names.Final name) (hfile : d.files name ≠ none) : e.files name ≠ none := by
  obtain hsame | ⟨file, hnew, -⟩ := h.final hs hnames hfinal
  · rwa [hsame]
  · rw [hnew]
    exact Option.some_ne_none _

end Change

structure Effect [DecidableEq π] (names : Names π τ β) (d e : Disk π τ β) (t : τ) : Prop where
  change : Change names d e t
  others : ∀ u, u ≠ t → e.calls u = d.calls u
  begun : ∀ x ∈ d.begun, x ∈ e.begun
  own : ∀ call, e.calls t = some call → Underway names e t call
  completed : ∀ x ∈ e.completed, x ∈ d.completed ∨ x ∈ d.begun ∧ names.Final x.1 ∧ e.files x.1 = some x.2

theorem Underway.enter (h : Underway names d t call) {phase : Phase}
    (hcalls : e.calls t = some { call with phase := phase })
    (hbegun : ∀ x ∈ d.begun, x ∈ e.begun)
    (hwhole : phase = .syncing ∨ phase = .renaming → e.files (names.temporary call.final t) = some call.content) :
    ∀ other, e.calls t = some other → Underway names e t other := by
  rintro other hother
  obtain rfl := Option.some.inj (hcalls.symm.trans hother)
  exact ⟨h.final, hbegun _ h.begun, hwhole⟩

theorem completed_acknowledge (hs : Sound names d) (hcall : d.calls t = some call)
    (hdone : e.files call.final = some call.content)
    (hcompleted : e.completed = (call.final, call.content) :: d.completed) :
    ∀ x ∈ e.completed, x ∈ d.completed ∨ x ∈ d.begun ∧ names.Final x.1 ∧ e.files x.1 = some x.2 := by
  intro x hx
  rw [hcompleted] at hx
  obtain rfl | hx := List.mem_cons.mp hx
  · have hunder := hs.underway t call hcall
    exact .inr ⟨hunder.begun, hunder.final, hdone⟩
  · exact .inl hx

section Run

variable [DecidableEq π] [DecidableEq τ]

theorem effect_enter (hs : Sound names d) (hcall : d.calls t = some call) {phase : Phase}
    (hwhole : phase = .syncing ∨ phase = .renaming → e.files (names.temporary call.final t) = some call.content)
    (hcalls : e.calls = (d.enter t call phase).calls) (hbegun : e.begun = d.begun)
    (hcompleted : e.completed = d.completed) (hchange : Change names d e t) : Effect names d e t where
  change := hchange
  others u hu := by rw [hcalls, d.enter_other hu]
  begun x hx := hbegun ▸ hx
  own := (hs.underway t call hcall).enter (by rw [hcalls, Disk.enter_self]) (fun x hx => hbegun ▸ hx) hwhole
  completed x hx := .inl (hcompleted ▸ hx)

theorem effect_leave (hcalls : e.calls = (d.leave t).calls) (hbegun : e.begun = d.begun)
    (hcompleted : ∀ x ∈ e.completed, x ∈ d.completed ∨ x ∈ d.begun ∧ names.Final x.1 ∧ e.files x.1 = some x.2)
    (hchange : Change names d e t) : Effect names d e t where
  change := hchange
  others u hu := by rw [hcalls, d.leave_other hu]
  begun x hx := hbegun ▸ hx
  own call hcall := by
    rw [hcalls, Disk.leave_self] at hcall
    cases hcall
  completed := hcompleted

theorem Step.effect (h : Step names d e) (hs : Sound names d) (hnames : names.Apart) : ∃ t, Effect names d e t := by
  cases h with
  | @begin t final content hfree hfinal =>
      refine ⟨t, .kept rfl, fun u hu => d.enter_other hu _ _, fun x hx => List.mem_cons_of_mem _ hx, ?_,
        fun x hx => .inl hx⟩
      intro call hcall
      obtain rfl := Option.some.inj ((Disk.enter_self _ _ _ _).symm.trans hcall)
      exact ⟨hfinal, List.mem_cons_self, by rintro (hphase | hphase) <;> cases hphase⟩
  | @found t call hcall =>
      exact ⟨t, effect_enter hs hcall (by rintro (hphase | hphase) <;> cases hphase) rfl rfl rfl (.kept rfl)⟩
  | @absent t call hcall =>
      exact ⟨t, effect_enter hs hcall (by rintro (hphase | hphase) <;> cases hphase) rfl rfl rfl (.kept rfl)⟩
  | @same t call hcall _ hfile =>
      exact ⟨t, effect_leave rfl rfl (completed_acknowledge hs hcall hfile rfl) (.kept rfl)⟩
  | @refused t => exact ⟨t, effect_leave rfl rfl (fun x hx => .inl hx) (.kept rfl)⟩
  | @created t call hcall =>
      exact ⟨t, effect_enter hs hcall (by rintro (hphase | hphase) <;> cases hphase) rfl rfl rfl (.scratch hcall _ rfl)⟩
  | @writes t call part hcall hphase =>
      refine ⟨t, .scratch hcall _ rfl, fun u hu => rfl, fun x hx => hx, ?_, fun x hx => .inl hx⟩
      refine @Underway.enter _ _ _ _ _ _ _ _ (hs.underway t call hcall) .writing ?_ (fun x hx => hx)
        (by rintro (hphase | hphase) <;> cases hphase)
      rw [Disk.put_calls, hcall, ← hphase]
  | @written t call hcall =>
      exact ⟨t, effect_enter hs hcall (fun _ => Function.update_self _ _ _) rfl rfl rfl (.scratch hcall _ rfl)⟩
  | @synced t call hcall hphase =>
      exact ⟨t, effect_enter hs hcall (fun _ => (hs.underway t call hcall).whole (.inl hphase)) rfl rfl rfl (.kept rfl)⟩
  | @renamed t call file hcall hphase hfile =>
      have hunder := hs.underway t call hcall
      obtain rfl := Option.some.inj ((hunder.whole (.inr hphase)).symm.trans hfile)
      refine ⟨t, effect_leave rfl rfl (completed_acknowledge hs hcall ?_ rfl) (.published hcall hphase hfile rfl)⟩
      exact (Function.update_of_ne (hnames.ne_temporary hunder.final _ _) _ _).trans (Function.update_self _ _ _)
  | @failed t call hcall =>
      exact ⟨t, effect_enter hs hcall (by rintro (hphase | hphase) <;> cases hphase) rfl rfl rfl (.kept rfl)⟩
  | @dropped t call hcall => exact ⟨t, effect_leave rfl rfl (fun x hx => .inl hx) (.scratch hcall _ rfl)⟩
  | @stopped t => exact ⟨t, effect_leave rfl rfl (fun x hx => .inl hx) (.kept rfl)⟩

omit [DecidableEq τ] in
theorem Effect.sound (h : Effect names d e t) (hs : Sound names d) (hnames : names.Apart) : Sound names e where
  underway u call hcall := by
    by_cases hu : u = t
    · subst hu
      exact h.own call hcall
    · rw [h.others u hu] at hcall
      have hunder := hs.underway u call hcall
      exact ⟨hunder.final, h.begun _ hunder.begun, fun hphase =>
        (h.change.other hs hnames hu).trans (hunder.whole hphase)⟩
  published name file hfinal hfile := by
    obtain hsame | ⟨other, hother, hbegun⟩ := h.change.final hs hnames hfinal
    · exact h.begun _ (hs.published name file hfinal (hsame ▸ hfile))
    · obtain rfl := Option.some.inj (hother.symm.trans hfile)
      exact h.begun _ hbegun
  named name hfile := h.change.named hs hfile
  completed x hx := by
    obtain hx | ⟨hbegun, hfinal, hfile⟩ := h.completed x hx
    · obtain ⟨hbegun, hfinal, hfile⟩ := hs.completed x hx
      exact ⟨h.begun _ hbegun, hfinal, h.change.kept_final hs hnames hfinal hfile⟩
    · exact ⟨h.begun _ hbegun, hfinal, by rw [hfile]; exact Option.some_ne_none _⟩

/-- In every order of the steps, whatever fails and whatever stops, final names have whole files. -/
theorem Sound.run (hs : Sound names d) (hnames : names.Apart) (h : ReflTransGen (Step names) d e) : Sound names e := by
  induction h with
  | refl => exact hs
  | tail _ hstep ih =>
      obtain ⟨t, heffect⟩ := hstep.effect ih hnames
      exact heffect.sound ih hnames

theorem Sound.run_kept (hs : Sound names d) (hnames : names.Apart) (h : ReflTransGen (Step names) d e) {name : π}
    (hfinal : names.Final name) (hfile : d.files name ≠ none) : e.files name ≠ none := by
  induction h with
  | refl => exact hfile
  | tail hrun hstep ih =>
      have hmiddle := hs.run hnames hrun
      obtain ⟨t, heffect⟩ := hstep.effect hmiddle hnames
      exact heffect.change.kept_final hmiddle hnames hfinal ih

theorem run_begun (hs : Sound names d) (hnames : names.Apart) (h : ReflTransGen (Step names) d e) :
    ∀ x ∈ d.begun, x ∈ e.begun := by
  induction h with
  | refl => exact fun x hx => hx
  | tail hrun hstep ih =>
      obtain ⟨t, heffect⟩ := hstep.effect (hs.run hnames hrun) hnames
      exact fun x hx => heffect.begun x (ih x hx)

section Alone

variable {final : π} {content : β}

theorem run_writing (d : Disk π τ β) (t : τ) (content : β) (htemporary : d.files (names.temporary final t) = none) :
    ReflTransGen (Step names) (d.enter t ⟨final, content, .looking⟩ .looking)
      ((d.enter t ⟨final, content, .creating⟩ .writing).put (names.temporary final t) (some names.empty)) := by
  have habsent : Step names _ _ := .absent (Disk.enter_self d t ⟨final, content, .looking⟩ .looking) rfl
  rw [Disk.enter_enter] at habsent
  have hcreated : Step names _ _ := .created (Disk.enter_self d t ⟨final, content, .looking⟩ .creating) rfl htemporary
  rw [Disk.enter_enter] at hcreated
  exact (ReflTransGen.single habsent).tail hcreated

theorem run_stopped (hfree : d.calls t = none) (hfinal : names.Final final)
    (htemporary : d.files (names.temporary final t) = none) {part : β} (hpart : names.Part part content) :
    ReflTransGen (Step names) d ((d.ask (final, content)).put (names.temporary final t) (some part)) := by
  let begun : Disk π τ β := d.ask (final, content)
  let call : Call π β := ⟨final, content, .creating⟩
  have hwrites : Step names ((begun.enter t call .writing).put (names.temporary final t) (some names.empty)) _ :=
    .writes (Disk.enter_self begun t call .writing) rfl hpart
  rw [Disk.put_put] at hwrites
  have hstopped : Step names ((begun.enter t call .writing).put (names.temporary final t) (some part)) _ :=
    .stopped (Disk.enter_self begun t call .writing)
  rw [Disk.put_leave, Disk.enter_leave, show begun.leave t = _ from Disk.leave_eq hfree] at hstopped
  exact (((run_writing begun t content htemporary).head (.begin hfree hfinal)).tail hwrites).tail hstopped

/-- A call that nothing disturbs publishes its file. -/
theorem run_published (hnames : names.Apart) (d : Disk π τ β) (t : τ) (content : β) (hfree : d.calls t = none)
    (hfinal : names.Final final) (htemporary : d.files (names.temporary final t) = none) :
    ReflTransGen (Step names) (d.enter t ⟨final, content, .looking⟩ .looking)
      ((d.put final (some content)).acknowledge (final, content)) := by
  have hwritten : Step names
      ((d.enter t ⟨final, content, .creating⟩ .writing).put (names.temporary final t) (some names.empty)) _ :=
    .written (Disk.enter_self d t ⟨final, content, .creating⟩ .writing) rfl
  rw [Disk.put_enter, Disk.enter_enter, Disk.put_put] at hwritten
  have hsynced :
      Step names ((d.enter t ⟨final, content, .writing⟩ .syncing).put (names.temporary final t) (some content)) _ :=
    .synced (Disk.enter_self d t ⟨final, content, .writing⟩ .syncing) rfl
  rw [Disk.put_enter, Disk.enter_enter] at hsynced
  have hrenamed :
      Step names ((d.enter t ⟨final, content, .syncing⟩ .renaming).put (names.temporary final t) (some content)) _ :=
    .renamed (Disk.enter_self d t ⟨final, content, .syncing⟩ .renaming) rfl (Function.update_self _ _ _)
  rw [Disk.put_leave, Disk.enter_leave, Disk.leave_eq hfree,
    Disk.put_comm _ (hnames.ne_temporary hfinal final t).symm, Disk.put_put,
      Disk.put_comm _ (hnames.ne_temporary hfinal final t),
    Disk.put_eq htemporary] at hrenamed
  exact (((run_writing d t content htemporary).tail hwritten).tail hsynced).tail hrenamed

theorem run_compared {file : β} (hfree : d.calls t = none) (hfinal : names.Final final)
    (hfile : d.files final = some file) :
    ReflTransGen (Step names) d (d.ask (final, content)) ∧ (file = content →
      ReflTransGen (Step names) d ((d.ask (final, content)).acknowledge (final, content))) := by
  have hself := Disk.enter_self (d.ask (final, content)) t ⟨final, content, .looking⟩ .looking
  have hfound := @Step.found _ _ _ _ _ names _ _ _ hself rfl (by
    rw [Disk.enter_files, show (d.ask (final, content)).files final = _ from hfile]
    exact Option.some_ne_none _)
  rw [Disk.enter_enter] at hfound
  have hrun := (ReflTransGen.single (Step.begin hfree hfinal)).tail hfound
  have hcomparing := Disk.enter_self (d.ask (final, content)) t ⟨final, content, .looking⟩ .comparing
  have hrefused := @Step.refused _ _ _ _ _ names _ _ _ hcomparing rfl
  rw [Disk.enter_leave, show (d.ask (final, content)).leave t = _ from Disk.leave_eq hfree] at hrefused
  refine ⟨hrun.tail hrefused, ?_⟩
  rintro rfl
  have hsame := @Step.same _ _ _ _ _ names _ _ _ hcomparing rfl hfile
  rw [Disk.enter_leave, show (d.ask (final, file)).leave t = _ from Disk.leave_eq hfree] at hsame
  exact hrun.tail hsame

end Alone

end Run

end Publishing
