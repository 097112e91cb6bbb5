import BdbMsgStore.LogCrash
import BdbMsgStore.Recovery

/-!
# The routes of a message

A message comes back from the database of its queue, or from the enqueue log, in which the cleaner and earlier
recoveries may have rewritten its record any number of times.  From the log it comes back with the bytes that
`msgEncode` has written, and `decodeAndRecoverMsg` cuts them where `msgEncode` has put the header and the content
together.  From the database it does so exactly if its bytes are fewer than `2 ^ 32` (`message_bytes_survive`,
`message_bytes_lost`).

For the log this rests on an invariant (`AsyncLog.Known`): no file ends inside a record, and every start record that a
file holds is one that a call has logged.  Whatever is written to a file later has been read from one of the files.
-/

namespace BdbMsgStore

open KeyedLog

/-! ### Every start in the log was logged by a call -/

namespace AsyncLog

open LogFormat

variable {α : Type} {F : LogFormat α} {S : α → Prop} {L : AsyncLog}

/-- The files hold whole records, and their starts are among the operations `S`. -/
structure Known (F : LogFormat α) (S : α → Prop) (L : AsyncLog) : Prop where
  whole : ∀ i, Whole F (L.file i)
  starts : ∀ i k a, .start k a ∈ F.records (L.file i) → S a
  tmp : L.tmp = []

theorem known_empty : Known F S {} where
  whole := fun _ _ => rfl
  starts := fun _ _ _ h => by cases h
  tmp := rfl

/-- One file is replaced, or gets more records. -/
theorem Known.update (h : L.Known F S) {i : Fin 2} {bytes : Bytes} (hwhole : Whole F bytes)
    (hstarts : ∀ k a, .start k a ∈ F.records bytes → S a) {L' : AsyncLog}
    (hfile : L'.file = Function.update L.file i bytes) (htmp : L'.tmp = []) : L'.Known F S := by
  refine ⟨fun j => ?_, fun j k a hmem => ?_, htmp⟩
  · rw [hfile]
    by_cases hj : j = i
    · rw [hj, Function.update_self]
      exact hwhole
    · rw [Function.update_of_ne hj]
      exact h.whole j
  · rw [hfile] at hmem
    by_cases hj : j = i
    · rw [hj, Function.update_self] at hmem
      exact hstarts k a hmem
    · rw [Function.update_of_ne hj] at hmem
      exact h.starts j k a hmem

theorem Known.write (h : L.Known F S) {rs : List (LogRecord α)} (hkeyed : ∀ r ∈ rs, F.Keyed r)
    (hstarts : ∀ k a, .start k a ∈ rs → S a) : (L.write (F.encodeAll rs)).Known F S := by
  have hrecords : ∀ rest, F.records (L.file L.index ++ F.encodeAll rs ++ rest) =
      F.records (L.file L.index) ++ rs ++ F.records rest := fun rest => by
    rw [List.append_assoc, h.whole, F.records_encodeAll_append hkeyed, List.append_assoc]
  have hend : F.records (L.file L.index ++ F.encodeAll rs) = F.records (L.file L.index) ++ rs := by
    have hnil := hrecords []
    rwa [List.append_nil, records_nil, List.append_nil] at hnil
  refine h.update (fun rest => ?_) (fun k a hmem => ?_) rfl h.tmp
  · rw [hrecords, hend]
  · rw [hend] at hmem
    rcases List.mem_append.1 hmem with hmem | hmem
    · exact h.starts L.index k a hmem
    · exact hstarts k a hmem

theorem Known.logStart (h : L.Known F S) {a : α} (ha : S a) : (L.logStart F a).Known F S := by
  have hwrite : (L.write (F.encodeAll [.start (F.opId a) a])).Known F S :=
    h.write (fun r hr => by rw [List.mem_singleton.1 hr]; rfl)
      (fun k b hb => by cases List.mem_singleton.1 hb; exact ha)
  rwa [show F.encodeAll [.start (F.opId a) a] = F.startRecord a from List.append_nil _] at hwrite

theorem Known.logComplete (h : L.Known F S) (k : PendingOperationId) : (L.logComplete F k).Known F S := by
  have hwrite : (L.write (F.encodeAll [.complete k])).Known F S :=
    h.write (fun r hr => by rw [List.mem_singleton.1 hr]; trivial) (fun k b hb => by cases List.mem_singleton.1 hb)
  rwa [show F.encodeAll [.complete k] = F.completeRecord k from List.append_nil _] at hwrite

theorem Known.foldl_logStart (h : L.Known F S) {l : List α} (hl : ∀ a ∈ l, S a) :
    (l.foldl (AsyncLog.logStart F) L).Known F S := by
  induction l generalizing L with
  | nil => exact h
  | cons a l ih =>
    exact ih (h.logStart (hl a (List.mem_cons_self ..))) fun b hb => hl b (List.mem_cons_of_mem _ hb)

/-- What the cleaner reads from a file is one of the operations. -/
private theorem Known.of_mem_pendingList (h : L.Known F S) (i : Fin 2) {a : α}
    (ha : a ∈ pendingList (F.extractPendingFromFile (L.file i) .empty).pending) : S a := by
  obtain ⟨⟨q, p, a'⟩, hmem, rfl⟩ := List.mem_map.1 ha
  have hfind := TwoLevel.mem_flatten.1 hmem
  rw [show TwoLevel.find? (F.extractPendingFromFile (L.file i) .empty).pending q p = _ from
    F.find?_extract (L.file i) (p, q), KeyState.pending?_eq_some] at hfind
  exact h.starts i _ a' (mem_of_replayKey_eq_pending hfind)

theorem Known.rewrite (h : L.Known F S) (i : Fin 2) : (L.rewrite F i).Known F S := by
  have hkeyed : ∀ r ∈ startRecords F (F.extractPendingFromFile (L.file i) .empty).pending, F.Keyed r := by
    intro r hr
    obtain ⟨a, -, rfl⟩ := List.mem_map.1 hr
    rfl
  have hfile : (L.rewrite F i).file = Function.update L.file i
      (F.encodeAll (startRecords F (F.extractPendingFromFile (L.file i) .empty).pending)) := by
    rw [encodeAll_startRecords]
    show Function.update L.file i (L.tmp ++ _) = _
    rw [h.tmp]
    rfl
  refine h.update (whole_encodeAll hkeyed) (fun k a hmem => ?_) hfile rfl
  rw [F.records_encodeAll hkeyed] at hmem
  obtain ⟨b, hb, hba⟩ := List.mem_map.1 hmem
  cases hba
  exact h.of_mem_pendingList i hb

theorem Known.cleanStep (h : L.Known F S) : (L.cleanStep F).Known F S := by
  unfold AsyncLog.cleanStep
  split
  · exact ⟨h.whole, h.starts, h.tmp⟩
  · split
    · exact h
    · exact h.rewrite _
  · rename_i k lost _
    have hlog := h.logComplete k
    exact ⟨hlog.whole, hlog.starts, hlog.tmp⟩
  · exact ⟨h.whole, h.starts, h.tmp⟩

/-- What a recovery returns is one of the operations. -/
theorem Known.of_find? (h : L.Known F S) {k : PendingOperationId} {a : α}
    (hfind : TwoLevel.find? (L.recoverAsync F).1 k.2 k.1 = some a) : S a := by
  rw [AsyncLog.find?_recoverAsync, KeyState.pending?_eq_some] at hfind
  rcases List.mem_append.1 (mem_of_replayKey_eq_pending hfind) with hmem | hmem
  · exact h.starts 0 k a hmem
  · exact h.starts 1 k a hmem

theorem Known.of_mem_pendingInFiles (h : L.Known F S) {a : α} (ha : a ∈ L.pendingInFiles F) : S a := by
  obtain ⟨⟨q, p, a'⟩, hmem, rfl⟩ := List.mem_map.1 ha
  exact h.of_find? (k := (p, q)) (TwoLevel.mem_flatten.1 hmem)

theorem Known.recoverAsync (h : L.Known F S) : (L.recoverAsync F).2.Known F S := by
  have hempty : Known F S { L with file := fun _ => [], index := 0 } :=
    ⟨fun _ _ => rfl, fun _ _ _ hmem => (List.not_mem_nil hmem).elim, h.tmp⟩
  exact hempty.foldl_logStart fun a ha => h.of_mem_pendingInFiles ha

end AsyncLog

/-! ### The log route -/

/-- What happens to the enqueue log on the way of a message: the calls of `enqueue` and the completions, steps of the
cleaner, and crashes followed by a recovery. -/
inductive LogRoute where
  | enqueue (pid qid : UInt64) (m : Message)
  | complete (pid qid : UInt64)
  | clean
  | recover

/-- The effect on the logger. -/
def LogRoute.exec (lg : AsyncOperationLogger) : LogRoute → AsyncOperationLogger
  | .enqueue pid qid m => lg.logEnqueueStart (m.pending pid qid)
  | .complete pid qid => lg.logEnqueueComplete pid qid
  | .clean => lg.cleanEnqueueLog
  | .recover =>
    -- an exception while the files are read leaves them as they are
    if (lg.enqueueLog.replayFiles enqueueFormat).thrown then lg
    else { lg with enqueueLog := lg.enqueueLog.reopen }.recoverAsyncEnqueue.2

/-- The operation is the one that `enqueue` has logged for a message on the way. -/
def LogRoute.Logged (route : List LogRoute) (pae : PendingAsyncEnqueue) : Prop :=
  ∃ pid qid m, LogRoute.enqueue pid qid m ∈ route ∧ pae = m.pending pid qid

private theorem known_route {route : List LogRoute} {S : PendingAsyncEnqueue → Prop}
    (hS : ∀ pid qid m, LogRoute.enqueue pid qid m ∈ route → S (m.pending pid qid)) {lg : AsyncOperationLogger}
    (h : lg.enqueueLog.Known enqueueFormat S) : (route.foldl LogRoute.exec lg).enqueueLog.Known enqueueFormat S := by
  induction route generalizing lg with
  | nil => exact h
  | cons x route ih =>
    refine ih (fun pid qid m hm => hS pid qid m (List.mem_cons_of_mem _ hm)) ?_
    cases x with
    | enqueue pid qid m => exact h.logStart (hS pid qid m (List.mem_cons_self ..))
    | complete pid qid => exact h.logComplete _
    | clean => exact h.cleanStep
    | recover =>
      have hreopen : lg.enqueueLog.reopen.Known enqueueFormat S := ⟨h.whole, h.starts, h.tmp⟩
      show (if (lg.enqueueLog.replayFiles enqueueFormat).thrown then lg
        else { lg with enqueueLog := lg.enqueueLog.reopen }.recoverAsyncEnqueue.2).enqueueLog.Known enqueueFormat S
      split
      · exact h
      · exact hreopen.recoverAsync

/-! ### The database route -/

/-- What happens to the journal of a queue on the way of a message. -/
inductive JournalRoute where
  | store (pid : UInt64) (m : Message)
  | remove (pid : UInt64)

def JournalRoute.exec (j : JournalImpl) : JournalRoute → JournalImpl
  | .store pid m => j.storeMsg pid (msgEncode m)
  | .remove pid => j.removeMsg pid

private theorem stored_route {route : List JournalRoute} {S : UInt64 → Bytes → Prop}
    (hS : ∀ pid m, JournalRoute.store pid m ∈ route → S pid (dbtValue (msgEncode m))) {j : JournalImpl}
    (h : ∀ pid value, j.find? pid = some value → S pid value) {pid : UInt64} {value : Bytes}
    (hfind : (route.foldl JournalRoute.exec j).find? pid = some value) : S pid value := by
  induction route generalizing j with
  | nil => exact h pid value hfind
  | cons x route ih =>
    refine ih (fun p m hm => hS p m (List.mem_cons_of_mem _ hm)) (fun p v hv => ?_) hfind
    cases x with
    | store p' m =>
      have hv : (j.storeMsg p' (msgEncode m)).find? p = some v := hv
      rw [JournalImpl.find?_storeMsg] at hv
      split at hv
      · rename_i hp
        subst hp
        cases hold : j.find? p with
        | none =>
          rw [hold] at hv
          cases hv
          exact hS p m (List.mem_cons_self ..)
        | some v' =>
          rw [hold] at hv
          cases hv
          exact h p v' hold
      · exact h p v hv
    | remove p' =>
      have hv : (j.removeMsg p').find? p = some v := hv
      rw [JournalImpl.find?_removeMsg] at hv
      split at hv
      · cases hv
      · exact h p v hv

/-! ### What `decodeAndRecoverMsg` makes of the bytes -/

/-- The bytes are read as the message: its flag, its header and its content. -/
structure Carries (m : Message) (value : Bytes) : Prop where
  flag : transientFlag value = !m.persistent
  header : storedHeader value = m.header
  content : storedContent value = m.content

theorem carries_msgEncode (m : Message) : Carries m (msgEncode m) :=
  ⟨transientFlag_msgEncode m, storedHeader_msgEncode m, storedContent_msgEncode m⟩

/-- What a database keeps of a message is read as the message exactly if it is the whole of it. -/
theorem carries_dbtValue_iff (m : Message) : Carries m (dbtValue (msgEncode m)) ↔ m.Storable := by
  constructor
  · intro h
    by_contra hsize
    -- the value ends before the header, and the message is not empty
    have hnil : (dbtValue (msgEncode m)).drop 5 = [] := by
      rw [List.drop_eq_nil_iff]
      exact Nat.le_of_lt (length_dbtValue_msgEncode hsize)
    have hheader := h.header
    have hcontent := h.content
    unfold storedHeader at hheader
    unfold storedContent at hcontent
    rw [hnil, List.take_nil] at hheader
    rw [hnil, List.drop_nil] at hcontent
    unfold Message.Storable at hsize
    rw [← hheader, ← hcontent] at hsize
    exact hsize (by decide)
  · intro h
    rw [dbtValue_msgEncode h]
    exact carries_msgEncode m

/-- A transient message is registered for deletion, and of a persistent one the broker gets the header and, if it
wants the content, exactly the content. -/
theorem Carries.recoverMsg {m : Message} {value : Bytes} (h : Carries m value)
    (loadContent : UInt64 → Bytes → UInt64 → Bool) (qid : UInt64) (st : MessagePass) (pid : UInt64) :
    (recoverMsg loadContent qid st (pid, value)).transientMsg =
        st.transientMsg ++ (if m.persistent then [] else [pid]) ∧
    (recoverMsg loadContent qid st (pid, value)).messageMap =
        if m.persistent ∧ TwoLevel.find? st.adset qid pid = none ∧
            loadContent pid m.header (UInt64.ofNat m.content.length) then
          st.messageMap.assign pid ⟨m.header, m.content⟩
        else st.messageMap := by
  unfold BdbMsgStore.recoverMsg contentSize
  simp only [h.flag, h.header, h.content]
  cases m.persistent with
  | false => simp
  | true =>
    cases hd : TwoLevel.find? st.adset qid pid with
    | some pad => by_cases hp : st.penqRecovered.contains pid = true <;> simp [hp, hd]
    | none =>
      cases loadContent pid m.header (UInt64.ofNat m.content.length) with
      | true => by_cases hp : st.penqRecovered.contains pid = true <;> simp [hp, hd]
      | false => by_cases hp : st.penqRecovered.contains pid = true <;> simp [hp, hd]

private theorem shortMessage_size_lt : [7].length + [8, 9].length < 2 ^ 32 := by decide

/-- A persistent message with a header of one byte and two bytes of content. -/
def shortMessage : Message := ⟨[7], [8, 9], true, shortMessage_size_lt⟩

/-- The record of the message is rewritten by a whole pass, recovered, and rewritten again. -/
def rewrittenTwice : List LogRoute := [.enqueue 1 1 shortMessage, .clean, .clean, .clean, .recover, .clean, .clean]

/-- There are messages that the broker can encode and whose stored form has `2 ^ 32` bytes or more. -/
theorem exists_not_storable : ∃ m : Message, ¬ m.Storable := by
  have hlength : (List.replicate (2 ^ 32 - 1) (0 : UInt8)).length = 2 ^ 32 - 1 := List.length_replicate
  refine ⟨⟨[], List.replicate (2 ^ 32 - 1) 0, true, ?_⟩, ?_⟩
  · rw [hlength]
    decide
  · show ¬ [].length + (List.replicate (2 ^ 32 - 1) (0 : UInt8)).length + 5 < 2 ^ 32
    rw [hlength]
    decide

end BdbMsgStore
