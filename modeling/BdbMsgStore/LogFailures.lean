import BdbMsgStore.MassComplete

/-!
# Writes to the logs that fail

The logger writes through `std::ofstream` with the default exception mask: a write that fails does not throw but
leaves the stream in an error state, in which later writes do nothing.  The functions of the logger look for
exceptions only, so they return the index of the file in any case, and `enqueue` does not look at what they return.

`log_failure_reported_iff` says for every call when an index (or, for `enqueue`, the call of `enqueueComplete`)
means that the records are in the file: exactly if the stream was good and took every byte.
-/

namespace BdbMsgStore

open AsyncLog

/-- The stream on the file that is open for appending: the bytes of the file, whether the stream is in an error
state, and the index of the file. -/
structure LogStream where
  bytes : Bytes := []
  bad : Bool := false
  index : Fin 2 := 0
  deriving DecidableEq

namespace LogStream

/-- `write` and `flush`; the file takes the first `accepted` bytes. -/
def write (st : LogStream) (data : Bytes) (accepted : Nat) : LogStream :=
  if st.bad then st
  else { st with bytes := st.bytes ++ data.take accepted, bad := decide (accepted < data.length) }

/-- One record is written, and the index of the file is returned: no exception gets to the handler. -/
def logRecord (st : LogStream) (record : Bytes) (accepted : Nat) : Int × LogStream :=
  ((st.index.val : Int), st.write record accepted)

variable {α : Type} (F : LogFormat α)

/-- `log_…_start` -/
def logStart (st : LogStream) (a : α) (accepted : Nat) : Int × LogStream := st.logRecord (F.startRecord a) accepted

/-- `log_…_complete` -/
def logComplete (st : LogStream) (k : PendingOperationId) (accepted : Nat) : Int × LogStream :=
  st.logRecord (F.completeRecord k) accepted

/-- The loop over `log_…_complete`, which returns the last result; `accepted` gives the outcomes of the writes in
turn. -/
def logCompleteEach : (Nat → Nat) → Int × LogStream → List PendingOperationId → Int × LogStream
  | _, r, [] => r
  | accepted, r, k :: ks => logCompleteEach (fun i => accepted (i + 1)) (r.2.logComplete F k (accepted 0)) ks

/-- `log_mass_…_complete`, if it returns: the stores do not leave the buffer, and the counter of the loop over the
single completions, an `unsigned int`, reaches the length of the list. -/
def logMassComplete (malloc : Bool) (st : LogStream) (pidList : List PendingOperationId) (accepted : Nat → Nat) :
    Option (Int × LogStream) :=
  if malloc ∧ 0 ≤ localBuffSize pidList.length then
    (fillLoop F pidList (pidList.length + 1) 0 0
      ((List.range (localBuffSize pidList.length).toNat).map fun _ => 0)).result.map fun bigbuff =>
        st.logRecord bigbuff (accepted 0)
  else if pidList.length < 2 ^ 32 then some (logCompleteEach F accepted (0, st) pidList)
  else none

end LogStream

/-- The streams of the logger. -/
structure LogStreams where
  enqueueFile : LogStream := {}
  dequeueFile : LogStream := {}

/-- A call of the logger, or of `enqueue` with its start record: the id of the queue, whether the message can be
encoded, and whether the task can be scheduled. -/
inductive LogCall where
  | enqueueStart (pae : PendingAsyncEnqueue)
  | enqueueComplete (pid qid : UInt64)
  | dequeueStart (pid qid : UInt64)
  | dequeueComplete (pid qid : UInt64)
  | massEnqueueComplete (malloc : Bool) (pidList : List PendingOperationId)
  | massDequeueComplete (malloc : Bool) (pidList : List PendingOperationId)
  | enqueue (queueId : UInt64) (encodes schedules : Bool) (pae : PendingAsyncEnqueue)

/-- What the caller learns. -/
inductive LogReply where
  | index (i : Int)
  | completed
  | threw
  deriving DecidableEq

/-- The call says that the records are in the log. -/
def LogReply.Success : LogReply → Prop
  | .index i => 0 ≤ i
  | .completed => True
  | .threw => False

namespace LogCall

/-- The outcome of a call that returns; `accepted` says how many bytes the file takes at each write. -/
def run (lg : LogStreams) (accepted : Nat → Nat) : LogCall → Option (LogReply × LogStreams)
  | .enqueueStart pae =>
    let r := lg.enqueueFile.logStart enqueueFormat pae (accepted 0)
    some (.index r.1, { lg with enqueueFile := r.2 })
  | .enqueueComplete pid qid =>
    let r := lg.enqueueFile.logComplete enqueueFormat (pid, qid) (accepted 0)
    some (.index r.1, { lg with enqueueFile := r.2 })
  | .dequeueStart pid qid =>
    let r := lg.dequeueFile.logStart dequeueFormat ⟨⟨pid, qid⟩⟩ (accepted 0)
    some (.index r.1, { lg with dequeueFile := r.2 })
  | .dequeueComplete pid qid =>
    let r := lg.dequeueFile.logComplete dequeueFormat (pid, qid) (accepted 0)
    some (.index r.1, { lg with dequeueFile := r.2 })
  | .massEnqueueComplete malloc pidList =>
    (lg.enqueueFile.logMassComplete enqueueFormat malloc pidList accepted).map fun r =>
      (.index r.1, { lg with enqueueFile := r.2 })
  | .massDequeueComplete malloc pidList =>
    (lg.dequeueFile.logMassComplete dequeueFormat malloc pidList accepted).map fun r =>
      (.index r.1, { lg with dequeueFile := r.2 })
  | .enqueue queueId encodes schedules pae =>
    if queueId = 0 ∨ encodes = false then some (.threw, lg)
    else
      -- the result of `log_enqueue_start` is not used
      let r := lg.enqueueFile.logStart enqueueFormat pae (accepted 0)
      some (if schedules then .completed else .threw, { lg with enqueueFile := r.2 })

/-- The files with the records of the call appended whole. -/
def Appended (lg lg' : LogStreams) : LogCall → Prop
  | .enqueueStart pae => lg'.enqueueFile.bytes = lg.enqueueFile.bytes ++ enqueueFormat.startRecord pae
  | .enqueueComplete pid qid =>
    lg'.enqueueFile.bytes = lg.enqueueFile.bytes ++ enqueueFormat.completeRecord (pid, qid)
  | .dequeueStart pid qid => lg'.dequeueFile.bytes = lg.dequeueFile.bytes ++ dequeueFormat.startRecord ⟨⟨pid, qid⟩⟩
  | .dequeueComplete pid qid =>
    lg'.dequeueFile.bytes = lg.dequeueFile.bytes ++ dequeueFormat.completeRecord (pid, qid)
  | .massEnqueueComplete _ pidList =>
    lg'.enqueueFile.bytes = lg.enqueueFile.bytes ++ pidList.flatMap enqueueFormat.completeRecord
  | .massDequeueComplete _ pidList =>
    lg'.dequeueFile.bytes = lg.dequeueFile.bytes ++ pidList.flatMap dequeueFormat.completeRecord
  | .enqueue _ _ _ pae => lg'.enqueueFile.bytes = lg.enqueueFile.bytes ++ enqueueFormat.startRecord pae

/-- A call that reports success has appended its records. -/
def Reported (lg : LogStreams) (accepted : Nat → Nat) (call : LogCall) : Prop :=
  ∀ r, call.run lg accepted = some r → r.1.Success → call.Appended lg r.2

end LogCall

/-- The file takes every byte of a batch. -/
def TakesBatch (malloc : Bool) (pidList : List PendingOperationId) (accepted : Nat → Nat) : Prop :=
  if malloc ∧ 0 ≤ localBuffSize pidList.length then 17 * pidList.length ≤ accepted 0
  else ∀ i < pidList.length, 17 ≤ accepted i

/-- The stream is good, and the file takes every byte, unless the call does not return or does not report a
success. -/
def LogCall.Accepted (lg : LogStreams) (accepted : Nat → Nat) : LogCall → Prop
  | .enqueueStart pae => lg.enqueueFile.bad = false ∧ (enqueueFormat.startRecord pae).length ≤ accepted 0
  | .enqueueComplete _ _ => lg.enqueueFile.bad = false ∧ 17 ≤ accepted 0
  | .dequeueStart _ _ => lg.dequeueFile.bad = false ∧ 17 ≤ accepted 0
  | .dequeueComplete _ _ => lg.dequeueFile.bad = false ∧ 17 ≤ accepted 0
  | .massEnqueueComplete malloc pidList =>
    pidList = [] ∨ ¬ Written malloc pidList ∨ lg.enqueueFile.bad = false ∧ TakesBatch malloc pidList accepted
  | .massDequeueComplete malloc pidList =>
    pidList = [] ∨ ¬ Written malloc pidList ∨ lg.dequeueFile.bad = false ∧ TakesBatch malloc pidList accepted
  | .enqueue queueId encodes schedules pae =>
    queueId = 0 ∨ encodes = false ∨ schedules = false ∨
      lg.enqueueFile.bad = false ∧ (enqueueFormat.startRecord pae).length ≤ accepted 0

/-! ### One write -/

namespace LogStream

theorem write_of_bad {st : LogStream} (h : st.bad = true) (data : Bytes) (accepted : Nat) :
    st.write data accepted = st := by
  unfold write
  rw [if_pos h]

/-- A write that is taken whole leaves the stream good. -/
theorem write_of_le {st : LogStream} (h : st.bad = false) {data : Bytes} {accepted : Nat}
    (hlen : data.length ≤ accepted) : st.write data accepted = { st with bytes := st.bytes ++ data } := by
  obtain ⟨bytes, bad, index⟩ := st
  dsimp only at h
  subst h
  unfold write
  simp [List.take_of_length_le hlen, hlen]

/-- After a write that is cut short the stream is bad, and bytes are missing. -/
theorem write_of_lt {st : LogStream} (h : st.bad = false) {data : Bytes} {accepted : Nat}
    (hlen : accepted < data.length) :
    (st.write data accepted).bad = true ∧ (st.write data accepted).bytes.length < st.bytes.length + data.length := by
  unfold write
  simp only [h, Bool.false_eq_true, ↓reduceIte, hlen, decide_true, List.length_append, List.length_take, true_and]
  omega

theorem write_eq_append_iff {st : LogStream} {data : Bytes} {accepted : Nat} (hdata : data ≠ []) :
    (st.write data accepted).bytes = st.bytes ++ data ↔ st.bad = false ∧ data.length ≤ accepted := by
  have hpos : 0 < data.length := List.length_pos_iff.2 hdata
  constructor
  · intro h
    have hlen := congrArg List.length h
    rw [List.length_append] at hlen
    by_cases hbad : st.bad = true
    · rw [write_of_bad hbad] at hlen
      omega
    · rw [Bool.not_eq_true] at hbad
      refine ⟨hbad, ?_⟩
      by_contra hlt
      have := (write_of_lt hbad (not_le.1 hlt)).2
      omega
  · intro ⟨hbad, hle⟩
    rw [write_of_le hbad hle]

/-! ### Batches -/

variable {α : Type} {F : LogFormat α}

theorem logCompleteEach_index (accepted : Nat → Nat) {r : Int × LogStream} (h : 0 ≤ r.1)
    (ks : List PendingOperationId) : 0 ≤ (logCompleteEach F accepted r ks).1 := by
  induction ks generalizing accepted r with
  | nil => exact h
  | cons k ks ih =>
    apply ih
    simp [logComplete, logRecord]

/-- On a bad stream the loop does nothing. -/
theorem logCompleteEach_of_bad (accepted : Nat → Nat) {r : Int × LogStream} (h : r.2.bad = true)
    (ks : List PendingOperationId) : (logCompleteEach F accepted r ks).2 = r.2 := by
  induction ks generalizing accepted r with
  | nil => rfl
  | cons k ks ih =>
    have hw : (r.2.logComplete F k (accepted 0)).2 = r.2 := write_of_bad h ..
    unfold logCompleteEach
    rw [ih _ (by rw [hw]; exact h), hw]

/-- The loop appends all records exactly if the stream is good and every write is taken whole. -/
theorem logCompleteEach_iff (accepted : Nat → Nat) (r : Int × LogStream) (ks : List PendingOperationId) :
    (logCompleteEach F accepted r ks).2.bytes = r.2.bytes ++ ks.flatMap F.completeRecord ↔
      ks = [] ∨ r.2.bad = false ∧ ∀ i < ks.length, 17 ≤ accepted i := by
  induction ks generalizing accepted r with
  | nil => simp [logCompleteEach]
  | cons k ks ih =>
    have hrec := F.length_completeRecord k
    simp only [reduceCtorEq, false_or, logCompleteEach]
    by_cases hbad : r.2.bad = true
    · -- nothing is written
      have hw : (r.2.logComplete F k (accepted 0)).2 = r.2 := write_of_bad hbad ..
      rw [logCompleteEach_of_bad _ (by rw [hw]; exact hbad), hw]
      simp [hbad, LogFormat.completeRecord]
    rw [Bool.not_eq_true] at hbad
    by_cases hlen : 17 ≤ accepted 0
    · -- the first record is written, and the rest is the loop for the tail
      have hw : (r.2.logComplete F k (accepted 0)).2 = { r.2 with bytes := r.2.bytes ++ F.completeRecord k } :=
        write_of_le hbad (by omega)
      have htail := ih (fun i => accepted (i + 1)) (r.2.logComplete F k (accepted 0))
      rw [hw] at htail
      rw [List.flatMap_cons, ← List.append_assoc]
      refine htail.trans ?_
      constructor
      · intro h
        refine ⟨hbad, ?_⟩
        intro i hi
        cases i with
        | zero => exact hlen
        | succ i =>
          rw [List.length_cons] at hi
          rcases h with h | h
          · rw [h] at hi
            simp at hi
          · exact h.2 i (by omega)
      · intro h
        right
        refine ⟨hbad, ?_⟩
        intro i hi
        exact h.2 (i + 1) (by rw [List.length_cons]; omega)
    · -- the first record is cut short, and nothing follows it
      obtain ⟨hbad', hshort⟩ := write_of_lt hbad (by omega : accepted 0 < (F.completeRecord k).length)
      rw [logCompleteEach_of_bad _ hbad']
      constructor
      · intro h
        have hl := congrArg List.length h
        change ((r.2.write (F.completeRecord k) (accepted 0)).bytes).length = _ at hl
        rw [List.length_append, List.flatMap_cons, List.length_append] at hl
        omega
      · intro h
        exact absurd (h.2 0 (by simp)) hlen

/-- A batch that returns gives an index, and has appended all its records exactly if the stream is good and the file
takes every byte. -/
theorem logMassComplete_iff (malloc : Bool) (st : LogStream) (pidList : List PendingOperationId)
    (accepted : Nat → Nat) :
    (∀ r, logMassComplete F malloc st pidList accepted = some r →
        0 ≤ r.1 → r.2.bytes = st.bytes ++ pidList.flatMap F.completeRecord) ↔
      pidList = [] ∨ ¬ Written malloc pidList ∨ st.bad = false ∧ TakesBatch malloc pidList accepted := by
  unfold logMassComplete TakesBatch
  by_cases hbuf : malloc = true ∧ 0 ≤ localBuffSize pidList.length
  · rw [if_pos hbuf, if_pos hbuf, result_fillLoop _ hbuf.2]
    have hwritten : Written malloc pidList ↔ 17 * pidList.length < 2 ^ 32 := by
      constructor
      · exact fun h => h.1 hbuf.1 hbuf.2
      · exact fun h => ⟨fun _ _ => h, by omega⟩
    rw [hwritten]
    by_cases hfits : 17 * pidList.length < 2 ^ 32
    · -- one write with all the records
      have hlen : (pidList.flatMap F.completeRecord).length = 17 * pidList.length := by
        rw [List.length_flatMap, List.map_congr_left (g := fun _ => 17) fun k _ => F.length_completeRecord k]
        simp [Nat.mul_comm]
      rw [if_pos hfits, Option.map_some]
      simp only [Option.some.injEq, forall_eq', hfits, not_true, false_or]
      refine (forall_prop_of_true (Int.natCast_nonneg _)).trans ?_
      unfold logRecord
      by_cases hnil : pidList = []
      · subst hnil
        simp only [true_or, iff_true]
        unfold write
        split <;> simp
      · have hpos : 0 < pidList.length := List.length_pos_iff.2 hnil
        rw [write_eq_append_iff (by rw [← List.length_pos_iff, hlen]; omega), hlen]
        simp [hnil]
    · rw [if_neg hfits]
      exact iff_of_true (fun r hr => by cases hr) (Or.inr (Or.inl hfits))
  · rw [if_neg hbuf, if_neg hbuf]
    have hwritten : Written malloc pidList ↔ pidList.length < 2 ^ 32 :=
      and_iff_right fun hm hnn => absurd ⟨hm, hnn⟩ hbuf
    rw [hwritten]
    by_cases hlen : pidList.length < 2 ^ 32
    · have hindex : 0 ≤ (logCompleteEach F accepted (0, st) pidList).1 :=
        logCompleteEach_index accepted le_rfl pidList
      rw [if_pos hlen]
      simp only [Option.some.injEq, forall_eq', hlen, not_true, false_or]
      exact (forall_prop_of_true hindex).trans (logCompleteEach_iff accepted (0, st) pidList)
    · rw [if_neg hlen]
      exact iff_of_true (fun r hr => by cases hr) (Or.inr (Or.inl hlen))

end LogStream

/-! ### When success is reported truthfully -/

/-- A call of the logger that returns an index, and a call of `enqueue` that reports the message as enqueued, have
appended their records exactly if the stream was good and the file took every byte. -/
theorem log_failure_reported_iff (lg : LogStreams) (accepted : Nat → Nat) (call : LogCall) :
    call.Reported lg accepted ↔ call.Accepted lg accepted := by
  have hindex : ∀ st : LogStream, (LogReply.index (st.index.val : Int)).Success := by
    intro st
    simp [LogReply.Success]
  unfold LogCall.Reported
  cases call with
  | enqueueStart pae =>
    simp only [LogCall.run, Option.some.injEq, forall_eq']
    refine (forall_prop_of_true (hindex _)).trans ?_
    exact LogStream.write_eq_append_iff (by simp [LogFormat.startRecord])
  | enqueueComplete pid qid =>
    simp only [LogCall.run, Option.some.injEq, forall_eq']
    refine (forall_prop_of_true (hindex _)).trans ?_
    refine (LogStream.write_eq_append_iff (by simp [LogFormat.completeRecord])).trans ?_
    rw [LogFormat.length_completeRecord]
    rfl
  | dequeueStart pid qid =>
    simp only [LogCall.run, Option.some.injEq, forall_eq']
    refine (forall_prop_of_true (hindex _)).trans ?_
    refine (LogStream.write_eq_append_iff (by simp [LogFormat.startRecord])).trans ?_
    simp [LogFormat.startRecord, dequeueFormat, length_idBytes, LogCall.Accepted]
  | dequeueComplete pid qid =>
    simp only [LogCall.run, Option.some.injEq, forall_eq']
    refine (forall_prop_of_true (hindex _)).trans ?_
    refine (LogStream.write_eq_append_iff (by simp [LogFormat.completeRecord])).trans ?_
    rw [LogFormat.length_completeRecord]
    rfl
  | massEnqueueComplete malloc pidList =>
    have hmass := LogStream.logMassComplete_iff (F := enqueueFormat) malloc lg.enqueueFile pidList accepted
    simp only [LogCall.run, Option.map_eq_some_iff, forall_exists_index, and_imp, forall_apply_eq_imp_iff₂]
    exact hmass
  | massDequeueComplete malloc pidList =>
    have hmass := LogStream.logMassComplete_iff (F := dequeueFormat) malloc lg.dequeueFile pidList accepted
    simp only [LogCall.run, Option.map_eq_some_iff, forall_exists_index, and_imp, forall_apply_eq_imp_iff₂]
    exact hmass
  | enqueue queueId encodes schedules pae =>
    unfold LogCall.Accepted LogCall.run
    by_cases hthrow : queueId = 0 ∨ encodes = false
    · simp only [hthrow, ↓reduceIte, Option.some.injEq, forall_eq', LogReply.Success, false_imp_iff, true_iff]
      rcases hthrow with h | h
      · exact Or.inl h
      · exact Or.inr (Or.inl h)
    · have hne := not_or.1 hthrow
      simp only [hne.1, hne.2, false_or]
      cases schedules with
      | false => simp [LogReply.Success]
      | true =>
        simp only [Option.some.injEq, forall_eq', ↓reduceIte, LogReply.Success, true_imp_iff, Bool.true_eq_false,
          false_or]
        exact LogStream.write_eq_append_iff (by simp [LogFormat.startRecord])

/-- A disk that takes no byte: the start of a dequeue is reported as logged in file 0, and the message of an
`enqueue` as enqueued. -/
theorem log_failure_not_reported :
    ¬ (∀ (lg : LogStreams) (accepted : Nat → Nat) (call : LogCall), call.Reported lg accepted) ∧
      ((LogCall.dequeueStart 1 1).run {} fun _ => 0).map Prod.fst = some (.index 0) ∧
      ((LogCall.enqueue 1 true true ⟨⟨1, 1⟩, [], 0, false, rfl, by decide⟩).run {} fun _ => 0).map
        (fun r => (r.1, r.2.enqueueFile.bytes)) = some (.completed, []) := by
  refine ⟨?_, by decide, by decide⟩
  intro h
  have hfile : ([] : Bytes) = [] ++ dequeueFormat.startRecord ⟨⟨1, 1⟩⟩ :=
    h {} (fun _ => 0) (.dequeueStart 1 1) _ rfl (by show (0 : Int) ≤ 0; exact le_rfl)
  exact absurd hfile (by decide)

end BdbMsgStore
