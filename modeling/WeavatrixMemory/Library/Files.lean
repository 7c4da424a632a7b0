import Mathlib.Algebra.Order.Ring.Nat
import Mathlib.Tactic.Common
import WeavatrixMemory.Library.Outcome

namespace Files

open Outcome

/-- How an operation on a file ends. When it fails or the process stops, it may be half done. -/
inductive Ending
  | done
  | failed (message : String)
  | stopped

/-- What happens to one operation: how much it gets done, and how it ends. -/
structure Fate where
  amount : Nat
  ending : Ending

inductive Fault
  | failed (message : String)
  | stopped
deriving DecidableEq

/-- An open file: its contents, the position of the handle, whether another process holds the lock,
and what will happen to the operations to come. -/
structure File where
  bytes : List UInt8
  fits : bytes.length < 2 ^ 63
  position : Nat
  locked : Bool
  fates : Nat → Fate

abbrev FileM (α : Type) := EStateM Fault File α

/-- No operation fails, whatever size the chunks of the reads have. -/
structure Faultless (file : File) : Prop where
  unlocked : file.locked = false
  done : ∀ n, (file.fates n).ending = .done

def File.advance (file : File) : File := { file with fates := fun n => file.fates (n + 1) }

def nextFate : FileM Fate := fun file => .ok (file.fates 0) file.advance

def finish (fate : Fate) : FileM Unit :=
  match fate.ending with
  | .done => pure ()
  | .failed message => throw (.failed message)
  | .stopped => throw .stopped

/-- A read into a buffer of the given length returns at least one byte, unless there is none or the
buffer is empty. -/
def read (length : Nat) : FileM (List UInt8) := do
  let fate ← nextFate
  finish fate
  let file ← get
  let chunk := (file.bytes.drop file.position).take (min length (fate.amount + 1))
  set { file with position := file.position + chunk.length }
  pure chunk

def seek (position : Nat) : FileM Unit := do
  let fate ← nextFate
  finish fate
  modify fun file => { file with position := position }

def openHandle : FileM Unit := seek 0

def seekEnd : FileM Unit := do
  let fate ← nextFate
  finish fate
  modify fun file => { file with position := file.bytes.length }

def length : FileM Nat := do
  let fate ← nextFate
  finish fate
  pure (← get).bytes.length

def tryLock : FileM Bool := do
  let fate ← nextFate
  finish fate
  pure !(← get).locked

def sync : FileM Unit := do
  let fate ← nextFate
  finish fate
  pure ()

def resize (bytes : List UInt8) (length : Nat) : List UInt8 :=
  bytes.take length ++ List.replicate (length - bytes.length) 0

def setLen (length : Nat) : FileM Unit := do
  let fate ← nextFate
  finish fate
  let file ← get
  if h : (resize file.bytes length).length < 2 ^ 63 then
    set { file with bytes := resize file.bytes length, fits := h }
  else throw (.failed "File too large")

def overwrite (bytes : List UInt8) (position : Nat) (data : List UInt8) : List UInt8 :=
  resize bytes position ++ data ++ bytes.drop (position + data.length)

def Fate.written (fate : Fate) (data : List UInt8) : List UInt8 :=
  match fate.ending with
  | .done => data
  | _ => data.take fate.amount

def writeAll (data : List UInt8) : FileM Unit := do
  let fate ← nextFate
  let file ← get
  let bytes := overwrite file.bytes file.position (fate.written data)
  if h : bytes.length < 2 ^ 63 then do
    set { file with bytes := bytes, fits := h, position := file.position + (fate.written data).length }
    finish fate
  else throw (.failed "File too large")

structure Same (file g : File) : Prop where
  bytes : g.bytes = file.bytes
  locked : g.locked = file.locked
  faultless : Faultless file → Faultless g

theorem same_refl (file : File) : Same file file := ⟨rfl, rfl, id⟩

theorem Same.trans {f g h : File} (hfg : Same f g) (hgh : Same g h) : Same f h :=
  ⟨hgh.bytes.trans hfg.bytes, hgh.locked.trans hfg.locked, fun hf => hgh.faultless (hfg.faultless hf)⟩

theorem same_advance (file : File) : Same file file.advance :=
  ⟨rfl, rfl, fun h => ⟨h.unlocked, fun n => h.done (n + 1)⟩⟩

theorem same_position (file : File) (position : Nat) : Same file { file with position := position } :=
  ⟨rfl, rfl, fun h => ⟨h.unlocked, h.done⟩⟩

def Spoiled (file : File) (_ : Fault) (g : File) : Prop := g.bytes = file.bytes ∧ ¬ Faultless file

theorem Spoiled.of_same {file g h : File} {fault : Fault} (hg : Spoiled g fault h) (hs : Same file g) :
    Spoiled file fault h := ⟨hg.1.trans hs.bytes, fun hf => hg.2 (hs.faultless hf)⟩

theorem fated_ends {α : Type} {file : File} {rest : Fate → FileM α} {good : α → File → Prop}
    (h : Ends good (Spoiled file) (rest (file.fates 0) file.advance)) :
    Ends good (Spoiled file) ((do let fate ← nextFate; finish fate; rest fate : FileM α) file) := by
  have hfate : (do let fate ← nextFate; finish fate; rest fate : FileM α) file =
      (do finish (file.fates 0); rest (file.fates 0) : FileM α) file.advance := rfl
  rw [hfate, finish]
  cases he : (file.fates 0).ending with
  | done => exact h
  | failed message =>
      refine ⟨rfl, fun hf => ?_⟩
      have hdone := hf.done 0
      rw [he] at hdone
      cases hdone
  | stopped =>
      refine ⟨rfl, fun hf => ?_⟩
      have hdone := hf.done 0
      rw [he] at hdone
      cases hdone

theorem seek_ends (position : Nat) (file : File) :
    Ends (fun _ g => Same file g ∧ g.position = position) (Spoiled file) (seek position file) :=
  fated_ends ⟨(same_advance file).trans (same_position _ _), rfl⟩

theorem seekEnd_ends (file : File) :
    Ends (fun _ g => Same file g ∧ g.position = file.bytes.length) (Spoiled file) (seekEnd file) :=
  fated_ends ⟨(same_advance file).trans (same_position _ _), rfl⟩

theorem length_ends (file : File) :
    Ends (fun n g => Same file g ∧ g.position = file.position ∧ n = file.bytes.length) (Spoiled file)
      (length file) :=
  fated_ends ⟨same_advance file, rfl, rfl⟩

theorem tryLock_ends (file : File) :
    Ends (fun acquired g => Same file g ∧ acquired = !file.locked) (Spoiled file) (tryLock file) :=
  fated_ends ⟨same_advance file, rfl⟩

theorem sync_ends (file : File) : Ends (fun _ g => Same file g) (Spoiled file) (sync file) :=
  @fated_ends _ file (fun _ => pure ()) (fun _ g => Same file g) (same_advance file)

def File.rest (file : File) : List UInt8 := file.bytes.drop file.position

theorem Same.rest_of_advanced {file g : File} (hs : Same file g) {n : Nat} (hp : g.position = file.position + n) :
    g.rest = file.rest.drop n := by
  rw [File.rest, File.rest, hs.bytes, hp, List.drop_drop]

theorem read_ends (n : Nat) (file : File) :
    Ends (fun chunk g => Same file g ∧ g.position = file.position + chunk.length ∧
        chunk = file.rest.take chunk.length ∧ chunk.length ≤ n ∧ (chunk = [] → n = 0 ∨ file.rest = []))
      (Spoiled file) (read n file) := by
  apply fated_ends
  refine ⟨(same_advance file).trans (same_position _ _), rfl, ?_, ?_, fun hempty => ?_⟩
  · rw [List.length_take]
    exact List.take_eq_take_min
  · exact (List.length_take_le _ _).trans (Nat.min_le_left _ _)
  · rcases List.take_eq_nil_iff.mp hempty with hmin | hrest
    · left
      omega
    · exact .inr hrest

theorem resize_of_le {bytes : List UInt8} {length : Nat} (h : length ≤ bytes.length) :
    resize bytes length = bytes.take length := by
  rw [resize, Nat.sub_eq_zero_of_le h, List.replicate_zero, List.append_nil]

theorem setLen_ends {length : Nat} {file : File} (h : length ≤ file.bytes.length) :
    Ends (fun _ g => g.bytes = file.bytes.take length ∧ (Faultless file → Faultless g)) (Spoiled file)
      (setLen length file) := by
  have hfits : (resize file.advance.bytes length).length < 2 ^ 63 := by
    have hfile := file.fits
    rw [File.advance, resize_of_le h, List.length_take]
    omega
  apply fated_ends
  change Ends _ _ ((dite _ _ _ : FileM Unit) file.advance)
  rw [dif_pos hfits]
  refine ⟨resize_of_le h, fun hf => ?_⟩
  have hnext := (same_advance file).faultless hf
  exact ⟨hnext.unlocked, hnext.done⟩

theorem overwrite_end (bytes data : List UInt8) : overwrite bytes bytes.length data = bytes ++ data := by
  have hbehind : bytes.drop (bytes.length + data.length) = [] := List.drop_of_length_le (Nat.le_add_right _ _)
  rw [overwrite, resize_of_le le_rfl, List.take_length, hbehind, List.append_nil]

theorem Fate.written_eq_take (fate : Fate) (data : List UInt8) : ∃ n, fate.written data = data.take n := by
  rw [Fate.written]
  cases fate.ending with
  | done => exact ⟨data.length, data.take_length.symm⟩
  | failed message => exact ⟨fate.amount, rfl⟩
  | stopped => exact ⟨fate.amount, rfl⟩

/-- Written at the end of the file, what fails has appended a beginning of the data. -/
theorem writeAll_ends {file : File} (h : file.position = file.bytes.length) (data : List UInt8) :
    Ends (fun _ g => g.bytes = file.bytes ++ data) (fun _ g => ∃ n, g.bytes = file.bytes ++ data.take n)
      (writeAll data file) := by
  have happend : overwrite file.advance.bytes file.advance.position ((file.fates 0).written data) =
      file.bytes ++ (file.fates 0).written data := by
    rw [File.advance, h, overwrite_end]
  obtain ⟨n, hn⟩ := (file.fates 0).written_eq_take data
  change Ends _ _ ((dite _ _ _ : FileM Unit) file.advance)
  by_cases hfits : (overwrite file.advance.bytes file.advance.position ((file.fates 0).written data)).length < 2 ^ 63
  · rw [dif_pos hfits]
    change Ends _ _ (finish (file.fates 0) _)
    have hbad : ∃ n, overwrite file.advance.bytes file.advance.position ((file.fates 0).written data) =
        file.bytes ++ data.take n := ⟨n, happend.trans (congrArg _ hn)⟩
    rw [finish]
    cases he : (file.fates 0).ending with
    | done =>
        change overwrite _ _ _ = _
        rw [happend, Fate.written, he]
    | failed message => exact hbad
    | stopped => exact hbad
  · rw [dif_neg hfits]
    refine ⟨0, ?_⟩
    rw [List.take_zero, List.append_nil]
    rfl

theorem writeAll_faultless {file : File} (hf : Faultless file) (h : file.position = file.bytes.length)
    (data : List UInt8) : Ends (fun _ g => g.bytes = file.bytes ++ data ∧ Faultless g)
      (fun fault g => fault = .failed "File too large" ∧ Same file g ∧ 2 ^ 63 ≤ file.bytes.length + data.length)
      (writeAll data file) := by
  have hwritten : (file.fates 0).written data = data := by rw [Fate.written, hf.done]
  have happend : overwrite file.advance.bytes file.advance.position ((file.fates 0).written data) =
      file.bytes ++ data := by rw [File.advance, h, overwrite_end, hwritten]
  have hnext := (same_advance file).faultless hf
  change Ends _ _ ((dite _ _ _ : FileM Unit) file.advance)
  by_cases hfits : (overwrite file.advance.bytes file.advance.position ((file.fates 0).written data)).length < 2 ^ 63
  · rw [dif_pos hfits]
    change Ends _ _ (finish (file.fates 0) _)
    rw [finish, hf.done]
    exact ⟨happend, hnext.unlocked, hnext.done⟩
  · rw [dif_neg hfits]
    rw [happend, List.length_append, not_lt] at hfits
    exact ⟨rfl, same_advance file, hfits⟩

end Files
