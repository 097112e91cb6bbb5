import BdbMsgStore.Lib.LogCycles
import BdbMsgStore.LogCrash

/-!
# The logs when a pair comes back

`AsyncLog.Inv` is about pairs that are started once.  `AsyncLog.Cyclic` is about pairs that go through start and
completion again and again: it says which of them have an operation in progress, and is kept by the writes and by
every step of the cleaner, as long as a pair is started again only while the cleaner sleeps or after the log has
forgotten it (`AsyncLog.Startable`).  When nothing is in progress such a log reads as empty
(`Cyclic.replayFiles_idle`), and two passes of the cleaner empty its files (`Cyclic.file_cleanPass`).
-/

namespace BdbMsgStore

open KeyedLog

/-- The completions that the cleaner has still to log again. -/
def CleanerPc.carried : CleanerPc → List PendingOperationId
  | .relogging lost => lost
  | _ => []

namespace AsyncLog

open LogFormat

variable {α : Type} (F : LogFormat α)

/-- The pairs with an operation in progress, as the files of the log know them. -/
def Cyclic (L : AsyncLog) (inProgress : PendingOperationId → Prop) : Prop := ∃ R, L.Sim F R ∧ R.Cyclic inProgress

/-- Neither the files nor the cleaner hold anything of the pair. -/
def Absent (L : AsyncLog) (k : PendingOperationId) : Prop :=
  (∀ i, (recordsOf k (F.records (L.file i))).isEmpty) ∧ k ∉ L.cleaner.carried

/-- A start of the pair may be logged: the cleaner sleeps, or the log holds nothing of the pair. -/
def Startable (L : AsyncLog) (k : PendingOperationId) : Prop := L.cleaner = .sleeping ∨ L.Absent F k

instance (L : AsyncLog) (k : PendingOperationId) : Decidable (L.Startable F k) :=
  inferInstanceAs (Decidable (_ ∨ (_ ∧ _)))

variable {F} {L : AsyncLog} {R : RotLog PendingOperationId α} {inProgress inProgress' : PendingOperationId → Prop}

theorem cyclic_empty : ({} : AsyncLog).Cyclic F fun _ => False :=
  ⟨⟨fun _ => [], 0, .idle⟩, ⟨fun _ => ⟨rfl, fun _ h => by cases h⟩, rfl, rfl, rfl⟩, RotLog.cyclic_empty⟩

theorem Cyclic.congr (h : L.Cyclic F inProgress) (hiff : ∀ k, inProgress' k ↔ inProgress k) :
    L.Cyclic F inProgress' := by
  rwa [show inProgress' = inProgress from funext fun k => propext (hiff k)]

theorem Sim.records_file (h : L.Sim F R) (i : Fin 2) : F.records (L.file i) = R.file i := by
  rw [(h.holds i).1, F.records_encodeAll (h.holds i).2]

theorem Sim.pass_eq_idle (h : L.Sim F R) (hsleep : L.cleaner = .sleeping) : R.pass = .idle := by
  have hpass := h.pass
  cases hp : R.pass with
  | idle => rfl
  | rotated =>
    rw [hp] at hpass
    cases hsleep.symm.trans hpass
  | relog lost =>
    rw [hp] at hpass
    cases hsleep.symm.trans hpass

private theorem Sim.not_carries (h : L.Sim F R) {k : PendingOperationId} (hk : k ∉ L.cleaner.carried) :
    ¬ R.pass.Carries k := by
  have hpass := h.pass
  cases hp : R.pass with
  | idle => exact id
  | rotated => exact id
  | relog lost =>
    rw [hp] at hpass
    rw [show L.cleaner = .relogging lost from hpass] at hk
    exact hk

theorem Cyclic.logStart (h : L.Cyclic F inProgress) {a : α} (hno : ¬ inProgress (F.opId a))
    (hstart : L.Startable F (F.opId a)) :
    (L.logStart F a).Cyclic F fun k => k = F.opId a ∨ inProgress k := by
  obtain ⟨R, hsim, hcyc⟩ := h
  refine ⟨_, hsim.write (r := .start (F.opId a) a) rfl, hcyc.start hno ?_ a⟩
  rcases hstart with hsleep | ⟨hfiles, hcarried⟩
  · exact Or.inl (hsim.pass_eq_idle hsleep)
  · refine Or.inr ⟨fun i => ?_, hsim.not_carries hcarried⟩
    rw [← hsim.records_file i]
    exact List.isEmpty_iff.1 (hfiles i)

theorem Cyclic.logComplete (h : L.Cyclic F inProgress) {k : PendingOperationId} (hin : inProgress k) :
    (L.logComplete F k).Cyclic F fun k' => k' ≠ k ∧ inProgress k' := by
  obtain ⟨R, hsim, hcyc⟩ := h
  exact ⟨_, hsim.write (r := .complete k) trivial, hcyc.complete hin⟩

theorem Cyclic.cleanStep (h : L.Cyclic F inProgress) : (L.cleanStep F).Cyclic F inProgress := by
  obtain ⟨R, hsim, hcyc⟩ := h
  obtain ⟨R', hsim', hclean⟩ := hsim.cleanStep
  exact ⟨R', hsim', hcyc.clean hclean⟩

private theorem Cyclic.iterate (h : L.Cyclic F inProgress) (n : Nat) :
    ((AsyncLog.cleanStep F)^[n] L).Cyclic F inProgress := by
  induction n with
  | zero => exact h
  | succ n ih =>
    rw [Function.iterate_succ_apply']
    exact ih.cleanStep

/-- A whole pass. -/
private theorem Cyclic.cleanPass (h : L.Cyclic F inProgress) (hsleep : L.cleaner = .sleeping) :
    (L.cleanPass F).Cyclic F inProgress := by
  have hread : (handled F L).thrown = false := by
    obtain ⟨R, hsim, -⟩ := h
    exact hsim.not_thrown L.index
  rw [← iterate_cleanStep hsleep hread]
  exact h.iterate _

/-! ### Nothing is in progress -/

section Idle

variable (h : L.Cyclic F fun _ => False) (hsleep : L.cleaner = .sleeping)

include h hsleep

theorem Cyclic.replayFiles_idle (k : PendingOperationId) : (L.replayFiles F).status k = .idle := by
  obtain ⟨R, hsim, hcyc⟩ := h
  unfold replayFiles
  rw [F.status_extract_extract, hsim.records_file, hsim.records_file]
  exact hcyc.replayKey_eq_idle (hsim.pass_eq_idle hsleep) id

/-- The file in use holds no pending start. -/
private theorem Cyclic.handled_settled (k : PendingOperationId) :
    (replayKey k (F.records (L.file L.index))).pending? = none := by
  obtain ⟨R, hsim, hcyc⟩ := h
  rw [hsim.records_file, hsim.index]
  rcases hcyc.read (hsim.pass_eq_idle hsleep) (k := k) id with ⟨-, hidle⟩ | ⟨a, -, hlost, -⟩
  · rw [hidle]
    rfl
  · rw [hlost]
    rfl

/-- Nor does it hold a lost completion when the other file is empty. -/
private theorem Cyclic.lostInHandled_eq_nil (hother : L.file (L.index + 1) = []) : lostInHandled F L = [] := by
  obtain ⟨R, hsim, hcyc⟩ := h
  rw [List.eq_nil_iff_forall_not_mem]
  intro k hk
  rw [mem_lostInHandled, hsim.records_file, hsim.index] at hk
  have hnil : R.file (R.active + 1) = [] := by
    rw [← hsim.records_file, ← hsim.index, hother]
    rfl
  rcases hcyc.read (hsim.pass_eq_idle hsleep) (k := k) id with ⟨-, hidle⟩ | ⟨a, hstart, -⟩
  · rw [hk] at hidle
    cases hidle
  · rw [hnil] at hstart
    cases hstart

/-- The first pass empties the file that was in use, and the second one, which finds the other file empty, has
nothing to keep and nothing to log again. -/
theorem Cyclic.file_cleanPass (i : Fin 2) : ((L.cleanPass F).cleanPass F).file i = [] := by
  have htmp : L.tmp = [] := by
    obtain ⟨R, hsim, -⟩ := h
    exact hsim.tmp
  have h₁ := h.cleanPass hsleep
  have hsleep₁ : (L.cleanPass F).cleaner = .sleeping := rfl
  have hindex : (L.cleanPass F).index = L.index + 1 := by
    show (((lostInHandled F L).take _).foldl (AsyncLog.logComplete F) (L.rotate.rewrite F L.index)).index = _
    rw [foldl_logComplete]
    rfl
  have hother : (L.cleanPass F).file ((L.cleanPass F).index + 1) = [] := by
    rw [hindex]
    show (L.cleanUntil F (.renamed _)).file (L.index + 1 + 1) = []
    rw [RotLog.other_other, file_renamed htmp (h.handled_settled hsleep),
      Function.update_of_ne (RotLog.other_ne _).symm, Function.update_self]
  generalize L.cleanPass F = L₁ at h₁ hsleep₁ hother
  have htmp₁ : L₁.tmp = [] := by
    obtain ⟨R, hsim, -⟩ := h₁
    exact hsim.tmp
  show (L₁.cleanUntil F (.renamed _)).file i = []
  rw [file_renamed htmp₁ (h₁.handled_settled hsleep₁), h₁.lostInHandled_eq_nil hsleep₁ hother, hother]
  by_cases hi : i = L₁.index + 1
  · rw [hi, Function.update_self]
    rfl
  · have hi' : i = L₁.index := by omega
    rw [Function.update_of_ne hi, hi', Function.update_self]

end Idle

end AsyncLog

end BdbMsgStore
