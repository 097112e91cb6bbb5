import BdbMsgStore.Lib.KeyedLog
import BdbMsgStore.Lib.TwoLevel
import BdbMsgStore.Lib.Words
import Mathlib.Logic.Function.Basic

/-!
# The logs of asynchronous operations

`AsyncOperationLogger.cpp`, with the types of `PendingOperationType.h` and `PendingOperationSet.h`, down to the
bytes of the files.  The logger keeps one log of enqueues and one of dequeues.  Both are written, cleaned and read
by the same code up to the opcodes and the layout of a start record, so everything below is defined for a
`LogFormat`, and the members of the class are its two instances.

A file that does not exist reads like an empty one, so both are the empty list of bytes here.
-/

namespace BdbMsgStore

open Words

abbrev Bytes := List UInt8

/-- `typedef std::pair<uint64_t,uint64_t> PendingOperationId`: message id and queue id. -/
abbrev PendingOperationId := UInt64 × UInt64

structure PendingAsyncOperation where
  msgId : UInt64
  queueId : UInt64
  deriving DecidableEq, Repr

def PendingAsyncOperation.opId (o : PendingAsyncOperation) : PendingOperationId := (o.msgId, o.queueId)

structure PendingAsyncDequeue extends PendingAsyncOperation
  deriving DecidableEq, Repr

/-- `std::vector<char>::max_size()`: what is larger throws `std::length_error`. -/
def maxBuffSize : Nat := 2 ^ 63 - 1

/-- The size that is logged is the size of the buffer at every call of `log_enqueue_start`, and the buffer is a
vector.  That a vector of a smaller size can be allocated is assumed. -/
structure PendingAsyncEnqueue extends PendingAsyncOperation where
  buff : Bytes
  size : UInt64
  transient : Bool
  size_eq : size.toNat = buff.length
  size_le : buff.length ≤ maxBuffSize
  deriving DecidableEq

/-- The nested maps of `PendingOperationSet.h`: queue id, then message id. -/
abbrev PendingSet (α : Type) := OrdMap UInt64 (OrdMap UInt64 α)

abbrev PendingOperationSet := PendingSet PendingAsyncOperation
abbrev PendingDequeueSet := PendingSet PendingAsyncDequeue
abbrev PendingEnqueueSet := PendingSet PendingAsyncEnqueue

/-! ### Records -/

/-- Message id and queue id as `memcpy` puts them into a record. -/
def idBytes (k : PendingOperationId) : Bytes := u64Bytes k.1 ++ u64Bytes k.2

theorem length_idBytes (k : PendingOperationId) : (idBytes k).length = 16 := by simp [idBytes]

/-- `infile.read` of `n` bytes: what was read and what is left; `none` when the stream ends before. -/
def read (n : Nat) (bytes : Bytes) : Option (Bytes × Bytes) :=
  if n ≤ bytes.length then some (bytes.take n, bytes.drop n) else none

theorem read_append {n : Nat} {l : Bytes} (h : l.length = n) (rest : Bytes) :
    read n (l ++ rest) = some (l, rest) := by
  unfold read
  rw [if_pos (by simp [h]), List.take_left' h, List.drop_left' h]

theorem length_of_read {n : Nat} {bytes l rest : Bytes} (h : read n bytes = some (l, rest)) :
    rest.length ≤ bytes.length := by
  unfold read at h
  split at h
  · cases h; simp
  · cases h

/-- The ids of a record, read at once. -/
def readIds (bytes : Bytes) : Option (PendingOperationId × Bytes) :=
  (read 16 bytes).map fun r => ((u64OfBytes (r.1.take 8), u64OfBytes (r.1.drop 8)), r.2)

theorem readIds_idBytes (k : PendingOperationId) (rest : Bytes) : readIds (idBytes k ++ rest) = some (k, rest) := by
  unfold readIds
  rw [read_append (length_idBytes k)]
  unfold idBytes
  simp only [Option.map_some]
  rw [List.take_left' (length_u64Bytes _), List.drop_left' (length_u64Bytes _), u64OfBytes_u64Bytes,
    u64OfBytes_u64Bytes]

theorem length_of_readIds {bytes rest : Bytes} {k : PendingOperationId} (h : readIds bytes = some (k, rest)) :
    rest.length ≤ bytes.length := by
  unfold readIds at h
  obtain ⟨⟨l, r⟩, hr, he⟩ := Option.map_eq_some_iff.1 h
  cases he
  exact length_of_read hr

/-- What the two logs differ in: the opcodes, and the part of a start record that follows its opcode, with its
reader.  The reader may throw instead of reading; it does not do so on what was written. -/
structure LogFormat (α : Type) where
  startOp : UInt8
  completeOp : UInt8
  op : α → PendingAsyncOperation
  startBytes : α → Bytes
  readStart : Bytes → Option (α × Bytes)
  startThrows : Bytes → Bool
  startOp_ne : startOp ≠ completeOp
  readStart_startBytes : ∀ a rest, readStart (startBytes a ++ rest) = some (a, rest)
  length_of_readStart : ∀ {bytes a rest}, readStart bytes = some (a, rest) → rest.length ≤ bytes.length
  readStart_of_throws : ∀ {bytes}, startThrows bytes = true → readStart bytes = none
  startThrows_of_prefix : ∀ {a rest l}, l <+: startBytes a ++ rest → startThrows l = false

namespace LogFormat

variable {α : Type} (F : LogFormat α)

def opId (a : α) : PendingOperationId := (F.op a).opId

def startRecord (a : α) : Bytes := F.startOp :: F.startBytes a

def completeRecord (k : PendingOperationId) : Bytes := F.completeOp :: idBytes k

theorem length_completeRecord (k : PendingOperationId) : (F.completeRecord k).length = 17 := by
  simp [completeRecord, length_idBytes]

/-! ### Reading a file -/

/-- The two maps that `extractPending…FromFile` fills, and whether it was left by an exception. -/
structure Extracted (α : Type) where
  pending : PendingSet α
  lost : PendingOperationSet
  thrown : Bool

def Extracted.empty : Extracted α := ⟨∅, ∅, false⟩

/-- A start record was read: it meets its lost completion, or becomes pending unless it is already. -/
def readStartRecord (x : Extracted α) (a : α) : Extracted α :=
  let o := F.op a
  if (TwoLevel.find? x.lost o.queueId o.msgId).isSome then
    { x with lost := TwoLevel.erase x.lost o.queueId o.msgId }
  else { x with pending := TwoLevel.insert x.pending o.queueId o.msgId a }

/-- A completion record was read: it meets its pending start, or is lost. -/
def readCompleteRecord (x : Extracted α) (k : PendingOperationId) : Extracted α :=
  if (TwoLevel.find? x.pending k.2 k.1).isSome then { x with pending := TwoLevel.erase x.pending k.2 k.1 }
  else { x with lost := TwoLevel.insert x.lost k.2 k.1 ⟨k.1, k.2⟩ }

/-- The loop of `extractPending…FromFile` over the bytes of the file.  Each turn reads an opcode; the loop ends at
the first read that fails or throws, and a byte that is no opcode is skipped. -/
def extractLoop : Nat → Bytes → Extracted α → Extracted α
  | 0, _, x => x
  | _ + 1, [], x => x
  | fuel + 1, opcode :: bytes, x =>
    if opcode = F.startOp then
      if F.startThrows bytes then { x with thrown := true }
      else
        match F.readStart bytes with
        | some (a, rest) => extractLoop fuel rest (F.readStartRecord x a)
        | none => x
    else if opcode = F.completeOp then
      match readIds bytes with
      | some (k, rest) => extractLoop fuel rest (readCompleteRecord x k)
      | none => x
    else extractLoop fuel bytes x

/-- `extractPending…FromFile`: every turn of the loop takes a byte. -/
def extractPendingFromFile (bytes : Bytes) (x : Extracted α) : Extracted α := F.extractLoop bytes.length bytes x

end LogFormat

/-! ### Loops that may not end well -/

/-- How far a call has come: it has not ended, it has stored something outside its buffer, or it has ended. -/
inductive Progress (β : Type) where
  | running
  | outside
  | ended (b : β)
  deriving DecidableEq, Repr

def Progress.map {β γ : Type} (f : β → γ) : Progress β → Progress γ
  | .running => .running
  | .outside => .outside
  | .ended b => .ended (f b)

/-- What the caller gets. -/
def Progress.result : {β : Type} → Progress β → Option β
  | _, .ended b => some b
  | _, _ => none

/-- The bytes `bs` are stored at the index; `none` when they do not lie inside the buffer. -/
def store (buff : Bytes) (index : Nat) (bs : Bytes) : Option Bytes :=
  if index + bs.length ≤ buff.length then some (buff.take index ++ bs ++ buff.drop (index + bs.length)) else none

/-! ### The files of one log -/

/-- Where the cleaner thread stands in its pass. -/
inductive CleanerPc where
  | sleeping
  | rotated (handlingIndex : Fin 2)
  | relogging (lost : List PendingOperationId)
  deriving DecidableEq, Repr

/-- One of the two logs: its files 0 and 1, the index of the one that is open for appending, the temporary file of
the cleaner, and the cleaner. -/
structure AsyncLog where
  file : Fin 2 → Bytes := fun _ => []
  index : Fin 2 := 0
  tmp : Bytes := []
  cleaner : CleanerPc := .sleeping

namespace AsyncLog

/-- A write to the open file. -/
def write (L : AsyncLog) (bytes : Bytes) : AsyncLog :=
  { L with file := Function.update L.file L.index (L.file L.index ++ bytes) }

variable {α : Type} (F : LogFormat α)

/-- `log_…_start` -/
def logStart (L : AsyncLog) (a : α) : AsyncLog := L.write (F.startRecord a)

/-- `log_…_complete` -/
def logComplete (L : AsyncLog) (k : PendingOperationId) : AsyncLog := L.write (F.completeRecord k)

/-- The size of the batch buffer, an `int`: the product of a record's size and the length of the list is truncated
to 32 bits. -/
def localBuffSize (n : Nat) : Int := castInt (UInt64.ofNat (17 * n))

/-- The stores of one turn: the opcode, the message id and the queue id. -/
def storeRecord (k : PendingOperationId) (buffindex : Nat) (bigbuff : Bytes) : Option Bytes :=
  match store bigbuff buffindex [F.completeOp] with
  | none => none
  | some bigbuff =>
    match store bigbuff (buffindex + 1) (u64Bytes k.1) with
    | none => none
    | some bigbuff => store bigbuff (buffindex + 1 + 8) (u64Bytes k.2)

/-- The loop that fills the buffer.  The counter is an `unsigned int`; `buffindex` is an `int`, which a store outside
the buffer stops before it could overflow. -/
def fillLoop (pidList : List PendingOperationId) : Nat → UInt32 → Nat → Bytes → Progress Bytes
  | 0, _, _, _ => .running
  | fuel + 1, k, buffindex, bigbuff =>
    if h : k.toNat < pidList.length then
      match storeRecord F (pidList.get ⟨k.toNat, h⟩) buffindex bigbuff with
      | some bigbuff => fillLoop pidList fuel (k + 1) (buffindex + 17) bigbuff
      | none => .outside
    else .ended bigbuff

/-- The loop over `log_…_complete`. -/
def singleLoop (pidList : List PendingOperationId) : Nat → UInt32 → AsyncLog → Progress AsyncLog
  | 0, _, _ => .running
  | fuel + 1, k, L =>
    if h : k.toNat < pidList.length then singleLoop pidList fuel (k + 1) (logComplete F L (pidList.get ⟨k.toNat, h⟩))
    else .ended L

/-- `log_mass_…_complete`, for `fuel` turns of its loop at most.  `malloc` says whether the allocation succeeds; it
never does for a negative size, which `malloc` takes for a number near `2 ^ 64`.  `memory` is what the allocated bytes
hold before they are written. -/
def massComplete (malloc : Bool) (memory : Nat → UInt8) (fuel : Nat) (L : AsyncLog)
    (pidList : List PendingOperationId) : Progress AsyncLog :=
  if malloc ∧ 0 ≤ localBuffSize pidList.length then
    (fillLoop F pidList fuel 0 0 ((List.range (localBuffSize pidList.length).toNat).map memory)).map L.write
  else singleLoop F pidList fuel 0 L

/-- `log_mass_…_complete` for its callers: the log it leaves, if it returns.  The loop takes one turn more than there
are ids, and what the memory held makes no difference (`logMassComplete_eq_some_iff`). -/
def logMassComplete (malloc : Bool) (L : AsyncLog) (pidList : List PendingOperationId) : Option AsyncLog :=
  (massComplete F malloc (fun _ => 0) (pidList.length + 1) L pidList).result

/-- The pending operations in the order of a nested loop over their map. -/
def pendingList (m : PendingSet α) : List α := TwoLevel.values m

/-- The part of a cleaner's pass that holds the mutex: the other file is opened. -/
def rotate (L : AsyncLog) : AsyncLog := { L with index := L.index + 1, cleaner := .rotated L.index }

/-- The handled file is replaced by one with the starts that are pending in it, which the cleaner writes to the
temporary file (opened for appending) and renames. -/
def rewrite (L : AsyncLog) (handlingIndex : Fin 2) : AsyncLog :=
  let x := F.extractPendingFromFile (L.file handlingIndex) .empty
  let tmplog := L.tmp ++ (pendingList x.pending).flatMap F.startRecord
  { L with
    file := Function.update L.file handlingIndex tmplog
    tmp := []
    cleaner := .relogging ((pendingList x.lost).map PendingAsyncOperation.opId) }

/-- One step of `clean…Log`.  An exception in `extractPending…FromFile` leaves the thread, and with it the pass, where
it is. -/
def cleanStep (L : AsyncLog) : AsyncLog :=
  match L.cleaner with
  | .sleeping => L.rotate
  | .rotated handlingIndex =>
    if (F.extractPendingFromFile (L.file handlingIndex) .empty).thrown then L else rewrite F L handlingIndex
  | .relogging (k :: lost) => { logComplete F L k with cleaner := .relogging lost }
  | .relogging [] => { L with cleaner := .sleeping }

/-- What reading both files gives, file 0 first. -/
def replayFiles (L : AsyncLog) : LogFormat.Extracted α :=
  F.extractPendingFromFile (L.file 1) (F.extractPendingFromFile (L.file 0) .empty)

/-- `recoverAsync…`, unless an exception leaves it while it reads: both files are read and removed; file 0 is opened,
and the pending operations are logged again. -/
def recoverAsync (L : AsyncLog) : PendingSet α × AsyncLog :=
  let x := L.replayFiles F
  (x.pending, (pendingList x.pending).foldl (logStart F) { L with file := fun _ => [], index := 0 })

end AsyncLog

/-! ### The enqueue log -/

/-- The fixed part of a start record, after the opcode. -/
def enqueuePreamble (pae : PendingAsyncEnqueue) : Bytes :=
  idBytes pae.opId ++ (u64Bytes pae.size ++ [if pae.transient then 1 else 0])

/-- The start branch of `extractPendingEnqueueFromFile`: the preamble is read at once, then the payload into a vector
of its size. -/
def readEnqueueStart (bytes : Bytes) : Option (PendingAsyncEnqueue × Bytes) :=
  match read 25 bytes with
  | none => none
  | some (startbuff, rest) =>
    let size := u64OfBytes ((startbuff.drop 16).take 8)
    if h : size.toNat ≤ rest.length ∧ size.toNat ≤ maxBuffSize then
      some ({ msgId := u64OfBytes (startbuff.take 8)
              queueId := u64OfBytes ((startbuff.drop 8).take 8)
              buff := rest.take size.toNat
              size := size
              transient := (startbuff.drop 24).headD 0 != 0
              size_eq := by simp [h.1]
              size_le := by simp [h.1, h.2] }, rest.drop size.toNat)
    else none

/-- The vector is too large: `pae.buff=std::vector<char>(size)` throws. -/
def enqueueStartThrows (bytes : Bytes) : Bool :=
  match read 25 bytes with
  | none => false
  | some (startbuff, _) => maxBuffSize < (u64OfBytes ((startbuff.drop 16).take 8)).toNat

private theorem preamble_fields (pae : PendingAsyncEnqueue) :
    u64OfBytes ((enqueuePreamble pae).take 8) = pae.msgId ∧
    u64OfBytes (((enqueuePreamble pae).drop 8).take 8) = pae.queueId ∧
    u64OfBytes (((enqueuePreamble pae).drop 16).take 8) = pae.size ∧
    (enqueuePreamble pae).drop 24 = [if pae.transient then 1 else 0] := by
  have h8 : ∀ x : UInt64, (u64Bytes x).length = 8 := length_u64Bytes
  refine ⟨?_, ?_, ?_, ?_⟩ <;> unfold enqueuePreamble
  · unfold idBytes
    rw [List.append_assoc, List.take_left' (h8 _), u64OfBytes_u64Bytes, PendingAsyncOperation.opId]
  · unfold idBytes
    rw [List.append_assoc, List.drop_left' (h8 _), List.take_left' (h8 _), u64OfBytes_u64Bytes,
      PendingAsyncOperation.opId]
  · rw [List.drop_left' (length_idBytes _), List.take_left' (h8 _), u64OfBytes_u64Bytes]
  · rw [← List.append_assoc, List.drop_left' (by simp [length_idBytes])]

/-- The size in the preamble. -/
theorem enqueuePreamble_size (pae : PendingAsyncEnqueue) :
    u64OfBytes (((enqueuePreamble pae).drop 16).take 8) = pae.size :=
  (preamble_fields pae).2.2.1

theorem readEnqueueStart_append (pae : PendingAsyncEnqueue) (rest : Bytes) :
    readEnqueueStart (enqueuePreamble pae ++ pae.buff ++ rest) = some (pae, rest) := by
  obtain ⟨hmsg, hqueue, hsize, hflag⟩ := preamble_fields pae
  have hlen : (enqueuePreamble pae).length = 25 := by simp [enqueuePreamble, length_idBytes]
  have hfit : pae.size.toNat ≤ (pae.buff ++ rest).length ∧ pae.size.toNat ≤ maxBuffSize := by
    rw [pae.size_eq, List.length_append]
    exact ⟨Nat.le_add_right .., pae.size_le⟩
  unfold readEnqueueStart
  rw [List.append_assoc, read_append hlen]
  simp only [hmsg, hqueue, hsize, hflag]
  rw [dif_pos hfit]
  simp only [pae.size_eq, List.take_left, List.drop_left]
  congr 2
  obtain ⟨o, buff, size, transient, hs, hle⟩ := pae
  cases transient <;> rfl

theorem readEnqueueStart_of_throws {bytes : Bytes} (h : enqueueStartThrows bytes = true) :
    readEnqueueStart bytes = none := by
  unfold enqueueStartThrows at h
  unfold readEnqueueStart
  split at h
  · cases h
  · exact dif_neg fun hfit => Nat.not_lt.2 hfit.2 (of_decide_eq_true h)

/-- What was written is read without an exception, also when it is cut. -/
theorem enqueueStartThrows_of_prefix {pae : PendingAsyncEnqueue} {rest l : Bytes}
    (h : l <+: enqueuePreamble pae ++ pae.buff ++ rest) : enqueueStartThrows l = false := by
  have hpre : (enqueuePreamble pae).length = 25 := by simp [enqueuePreamble, length_idBytes]
  unfold enqueueStartThrows
  by_cases hlen : 25 ≤ l.length
  · -- the preamble is whole
    have htake : l.take 25 = enqueuePreamble pae := by
      obtain ⟨t, ht⟩ := h
      have htake := congrArg (List.take 25) ht
      rwa [List.take_append_of_le_length hlen, List.append_assoc, List.take_left' hpre] at htake
    have hread : read 25 l = some (enqueuePreamble pae, l.drop 25) := by
      unfold read
      rw [if_pos hlen, htake]
    rw [hread]
    simp only [enqueuePreamble_size, pae.size_eq]
    exact decide_eq_false (Nat.not_lt.2 pae.size_le)
  · have hread : read 25 l = none := by
      unfold read
      rw [if_neg hlen]
    rw [hread]

theorem length_of_readEnqueueStart {bytes rest : Bytes} {pae : PendingAsyncEnqueue}
    (h : readEnqueueStart bytes = some (pae, rest)) : rest.length ≤ bytes.length := by
  unfold readEnqueueStart at h
  split at h
  · cases h
  · rename_i startbuff r hr
    have hlen := length_of_read hr
    simp only at h
    split at h
    · cases h
      simp only [List.length_drop]
      omega
    · cases h

/-- The format of the enqueue log: opcodes `0x04` and `0x05`. -/
def enqueueFormat : LogFormat PendingAsyncEnqueue where
  startOp := 0x04
  completeOp := 0x05
  op := PendingAsyncEnqueue.toPendingAsyncOperation
  startBytes := fun pae => enqueuePreamble pae ++ pae.buff
  readStart := readEnqueueStart
  startThrows := enqueueStartThrows
  startOp_ne := by decide
  readStart_startBytes := readEnqueueStart_append
  length_of_readStart := length_of_readEnqueueStart
  readStart_of_throws := readEnqueueStart_of_throws
  startThrows_of_prefix := enqueueStartThrows_of_prefix

/-- The format of the dequeue log: opcodes `0x02` and `0x03`. -/
def dequeueFormat : LogFormat PendingAsyncDequeue where
  startOp := 0x02
  completeOp := 0x03
  op := PendingAsyncDequeue.toPendingAsyncOperation
  startBytes := fun pad => idBytes pad.opId
  readStart := fun bytes => (readIds bytes).map fun r => (⟨⟨r.1.1, r.1.2⟩⟩, r.2)
  startThrows := fun _ => false
  startOp_ne := by decide
  readStart_startBytes := fun pad rest => by
    rw [readIds_idBytes]
    rfl
  length_of_readStart := fun h => by
    obtain ⟨⟨k, r⟩, hr, he⟩ := Option.map_eq_some_iff.1 h
    cases he
    exact length_of_readIds hr
  readStart_of_throws := fun h => nomatch h
  startThrows_of_prefix := fun _ => rfl

/-! ### The logger -/

/-- The logger: its enqueue log and its dequeue log. -/
structure AsyncOperationLogger where
  enqueueLog : AsyncLog := {}
  dequeueLog : AsyncLog := {}

namespace AsyncOperationLogger

variable (lg : AsyncOperationLogger)

def logEnqueueStart (pae : PendingAsyncEnqueue) : AsyncOperationLogger :=
  { lg with enqueueLog := lg.enqueueLog.logStart enqueueFormat pae }

def logEnqueueComplete (pid qid : UInt64) : AsyncOperationLogger :=
  { lg with enqueueLog := lg.enqueueLog.logComplete enqueueFormat (pid, qid) }

def logDequeueStart (pid qid : UInt64) : AsyncOperationLogger :=
  { lg with dequeueLog := lg.dequeueLog.logStart dequeueFormat ⟨⟨pid, qid⟩⟩ }

def logDequeueComplete (pid qid : UInt64) : AsyncOperationLogger :=
  { lg with dequeueLog := lg.dequeueLog.logComplete dequeueFormat (pid, qid) }

/-- `log_mass_enqueue_complete`; `none` when it does not return. -/
def logMassEnqueueComplete (malloc : Bool) (pidList : List PendingOperationId) : Option AsyncOperationLogger :=
  (lg.enqueueLog.logMassComplete enqueueFormat malloc pidList).map fun L => { lg with enqueueLog := L }

/-- `log_mass_dequeue_complete`; `none` when it does not return. -/
def logMassDequeueComplete (malloc : Bool) (pidList : List PendingOperationId) : Option AsyncOperationLogger :=
  (lg.dequeueLog.logMassComplete dequeueFormat malloc pidList).map fun L => { lg with dequeueLog := L }

def logMassEnqueueDequeueComplete (malloc : Bool) (pidList : List PendingOperationId) :
    Option AsyncOperationLogger := do
  let lg ← lg.logMassEnqueueComplete malloc pidList
  lg.logMassDequeueComplete malloc pidList

/-- The next step of the thread that runs `cleanEnqueueLog`. -/
def cleanEnqueueLog : AsyncOperationLogger :=
  { lg with enqueueLog := lg.enqueueLog.cleanStep enqueueFormat }

/-- The next step of the thread that runs `cleanDequeueLog`. -/
def cleanDequeueLog : AsyncOperationLogger :=
  { lg with dequeueLog := lg.dequeueLog.cleanStep dequeueFormat }

def recoverAsyncEnqueue : PendingEnqueueSet × AsyncOperationLogger :=
  let r := lg.enqueueLog.recoverAsync enqueueFormat
  (r.1, { lg with enqueueLog := r.2 })

def recoverAsyncDequeue : PendingDequeueSet × AsyncOperationLogger :=
  let r := lg.dequeueLog.recoverAsync dequeueFormat
  (r.1, { lg with dequeueLog := r.2 })

end AsyncOperationLogger

end BdbMsgStore
