import BdbMsgStore.AsyncOperationLogger

/-!
# The loops of the batch operations

`log_mass_enqueue_complete` and `log_mass_dequeue_complete` have a buffer of `local_buff_size` bytes, three stores in
each turn, the counter `unsigned int k`, and a loop over single completions when `malloc` fails.  A store outside the
buffer is an outcome of its own (`Progress.outside`), and a loop that has not ended is `Progress.running` however many
turns it is given.

The batch is logged like its elements one by one exactly when the buffer is large enough or was not allocated, and
the counter reaches the length of the list (`batch_eq_singles_iff`); otherwise the call does not return
(`logMassComplete_eq_some_iff`).
-/

namespace BdbMsgStore

open Words

/-- The call ends with the given result, and it never stores outside its buffer. -/
structure Progress.EndsWith {β : Type} (run : Nat → Progress β) (result : β) : Prop where
  ends : ∃ fuel, run fuel = .ended result
  inside : ∀ fuel, run fuel ≠ .outside

theorem Progress.endsWith_map_iff {β γ : Type} {f : β → γ} (hf : Function.Injective f)
    {run : Nat → Progress β} {b : β} : EndsWith (fun fuel => (run fuel).map f) (f b) ↔ EndsWith run b := by
  have hended : ∀ p : Progress β, p.map f = .ended (f b) ↔ p = .ended b := fun p => by
    cases p <;> simp [Progress.map, hf.eq_iff]
  have houtside : ∀ p : Progress β, p.map f = .outside ↔ p = .outside := fun p => by
    cases p <;> simp [Progress.map]
  constructor
  · rintro ⟨⟨fuel, h⟩, hin⟩
    exact ⟨⟨fuel, (hended _).1 h⟩, fun fuel => mt (houtside _).2 (hin fuel)⟩
  · rintro ⟨⟨fuel, h⟩, hin⟩
    exact ⟨⟨fuel, (hended _).2 h⟩, fun fuel => mt (houtside _).1 (hin fuel)⟩

/-! ### Stores into the buffer -/

theorem store_append (done rest bs : Bytes) {index : Nat} (h : index = done.length) :
    store (done ++ rest) index bs =
      if bs.length ≤ rest.length then some (done ++ bs ++ rest.drop bs.length) else none := by
  subst h
  have hdrop : (done ++ rest).drop (done.length + bs.length) = rest.drop bs.length := by
    rw [← List.drop_drop, List.drop_left]
  have hlen : (done ++ rest).length = done.length + rest.length := List.length_append
  unfold store
  rw [List.take_left, hdrop, hlen]
  split <;> split <;> first | rfl | omega

namespace AsyncLog

variable {α : Type} (F : LogFormat α)

/-- The size of a batch fits into 32 bits. -/
def Fits (ks : List PendingOperationId) : Prop := 17 * ks.length < 2 ^ 32

/-- The buffer has room for all records, if there is one. -/
def HasRoom (malloc : Bool) (ks : List PendingOperationId) : Prop :=
  malloc = true → 0 ≤ localBuffSize ks.length → Fits ks

/-- The batch is written whole: the buffer has room for it, and the counter reaches its length. -/
def Written (malloc : Bool) (ks : List PendingOperationId) : Prop := HasRoom malloc ks ∧ ks.length < 2 ^ 32

instance (malloc : Bool) (ks : List PendingOperationId) : Decidable (HasRoom malloc ks) :=
  inferInstanceAs (Decidable (_ → _ → 17 * ks.length < 2 ^ 32))

instance (malloc : Bool) (ks : List PendingOperationId) : Decidable (Written malloc ks) :=
  inferInstanceAs (Decidable (_ ∧ _))

variable {F}

theorem write_write (L : AsyncLog) (b b' : Bytes) : (L.write b).write b' = L.write (b ++ b') := by
  unfold AsyncLog.write
  simp

theorem write_nil (L : AsyncLog) : L.write [] = L := by
  unfold AsyncLog.write
  simp

theorem foldl_logComplete (L : AsyncLog) (ks : List PendingOperationId) :
    ks.foldl (logComplete F) L = L.write (ks.flatMap F.completeRecord) := by
  induction ks generalizing L with
  | nil => exact (write_nil L).symm
  | cons k ks ih =>
    rw [List.foldl_cons, ih, List.flatMap_cons]
    exact write_write ..

/-- A buffer that is large enough is as large as the batch. -/
theorem localBuffSize_of_fits {ks : List PendingOperationId} (h : Fits ks)
    (hnn : 0 ≤ localBuffSize ks.length) : (localBuffSize ks.length).toNat = 17 * ks.length := by
  have htoNat : (UInt64.ofNat (17 * ks.length)).toNat = 17 * ks.length := by
    unfold Fits at h
    rw [UInt64.toNat_ofNat', Nat.mod_eq_of_lt (by omega)]
  unfold localBuffSize at hnn ⊢
  rw [castInt_of_nonneg (by rw [htoNat]; exact h) hnn, htoNat, Int.toNat_natCast]

theorem written_nil (malloc : Bool) : Written malloc [] := ⟨fun _ _ => by unfold Fits; decide, by decide⟩

/-! ### One turn, then the loop -/

/-- A turn writes the record of its id behind the records before it. -/
theorem storeRecord_append (k : PendingOperationId) (done rest : Bytes) :
    storeRecord F k done.length (done ++ rest) =
      if 17 ≤ rest.length then some (done ++ F.completeRecord k ++ rest.drop 17) else none := by
  have h8 : ∀ x : UInt64, (u64Bytes x).length = 8 := length_u64Bytes
  have h9 : (done ++ [F.completeOp]).length = done.length + 1 := by simp
  have h17 : (done ++ [F.completeOp] ++ u64Bytes k.1).length = done.length + 1 + 8 := by
    rw [List.length_append, h8, h9]
  unfold storeRecord
  rw [store_append done rest _ rfl]
  by_cases hone : [F.completeOp].length ≤ rest.length
  · rw [if_pos hone]
    dsimp only
    rw [store_append _ _ _ h9.symm]
    by_cases hnine : (u64Bytes k.1).length ≤ (rest.drop [F.completeOp].length).length
    · rw [if_pos hnine]
      dsimp only
      rw [store_append _ _ _ h17.symm, List.drop_drop, List.drop_drop, List.length_drop]
      simp only [h8, List.length_singleton, List.length_drop] at hone hnine ⊢
      by_cases hall : 17 ≤ rest.length
      · rw [if_pos (by omega), if_pos hall]
        simp [LogFormat.completeRecord, idBytes]
      · rw [if_neg (by omega), if_neg hall]
    · rw [if_neg hnine, if_neg]
      rw [h8, List.length_drop, List.length_singleton] at hnine
      omega
  · rw [if_neg hone, if_neg]
    rw [List.length_singleton] at hone
    omega

private theorem get_of_drop {pidList todo : List PendingOperationId} {k : UInt32} {a : PendingOperationId}
    (h : pidList.drop k.toNat = a :: todo) :
    ∃ hk : k.toNat < pidList.length, pidList.get ⟨k.toNat, hk⟩ = a ∧ pidList.drop (k.toNat + 1) = todo := by
  have hk : k.toNat < pidList.length := by
    by_contra hge
    rw [List.drop_of_length_le (by omega)] at h
    cases h
  rw [List.drop_eq_getElem_cons hk] at h
  exact ⟨hk, List.cons.inj h⟩

private theorem length_le_of_drop_nil {pidList : List PendingOperationId} {k : UInt32}
    (h : pidList.drop k.toNat = []) : ¬ k.toNat < pidList.length := by
  rw [List.drop_eq_nil_iff] at h
  omega

private theorem toNat_succ {k : UInt32} (h : k.toNat + 1 < 2 ^ 32) : (k + 1).toNat = k.toNat + 1 := by
  rw [UInt32.toNat_add]
  exact Nat.mod_eq_of_lt h

/-- The loop that fills the buffer takes a turn for each id that is left, until the buffer has no room for the next
record. -/
theorem fillLoop_spec {pidList todo : List PendingOperationId} (fuel : Nat) {k : UInt32} {done rest : Bytes}
    (htodo : pidList.drop k.toNat = todo) (hwrap : k.toNat + min todo.length (rest.length / 17) < 2 ^ 32) :
    fillLoop F pidList fuel k done.length (done ++ rest) =
      if fuel ≤ min todo.length (rest.length / 17) then .running
      else if rest.length < 17 * todo.length then .outside
      else .ended (done ++ todo.flatMap F.completeRecord ++ rest.drop (17 * todo.length)) := by
  induction fuel generalizing k todo done rest with
  | zero => rw [if_pos (Nat.zero_le _)]; rfl
  | succ fuel ih =>
    unfold fillLoop
    cases todo with
    | nil =>
      rw [dif_neg (length_le_of_drop_nil htodo)]
      simp
    | cons a todo =>
      obtain ⟨hk, hget, hdrop⟩ := get_of_drop htodo
      rw [dif_pos hk, hget, storeRecord_append]
      rw [List.length_cons] at hwrap
      by_cases hroom : 17 ≤ rest.length
      · have hlen : (rest.drop 17).length = rest.length - 17 := List.length_drop
        have hrec : done.length + 17 = (done ++ F.completeRecord a).length := by
          rw [List.length_append, F.length_completeRecord]
        have hnext : (k + 1).toNat = k.toNat + 1 := toNat_succ (by omega)
        have htodo' : pidList.drop (k + 1).toNat = todo := by rw [hnext, hdrop]
        rw [if_pos hroom]
        dsimp only
        rw [hrec, ih htodo' (by rw [hnext, hlen]; omega), hlen, List.length_cons, List.flatMap_cons, List.drop_drop]
        have hfuel : fuel ≤ min todo.length ((rest.length - 17) / 17) ↔
            fuel + 1 ≤ min (todo.length + 1) (rest.length / 17) := by omega
        have hshort : rest.length - 17 < 17 * todo.length ↔ rest.length < 17 * (todo.length + 1) := by omega
        simp only [hfuel, hshort, List.append_assoc, Nat.mul_add, Nat.mul_one, Nat.add_comm 17]
      · rw [if_neg hroom, List.length_cons, if_neg (by omega), if_pos (by omega)]

/-- The loop over the single completions takes a turn for each id that is left. -/
theorem singleLoop_spec {pidList todo : List PendingOperationId} (hlen : pidList.length < 2 ^ 32) (fuel : Nat)
    {k : UInt32} (L : AsyncLog) (htodo : pidList.drop k.toNat = todo) :
    singleLoop F pidList fuel k L =
      if fuel ≤ todo.length then .running else .ended (todo.foldl (logComplete F) L) := by
  induction fuel generalizing k todo L with
  | zero => rw [if_pos (Nat.zero_le _)]; rfl
  | succ fuel ih =>
    unfold singleLoop
    cases todo with
    | nil =>
      rw [dif_neg (length_le_of_drop_nil htodo)]
      simp
    | cons a todo =>
      obtain ⟨hk, hget, hdrop⟩ := get_of_drop htodo
      have htodo' : pidList.drop (k + 1).toNat = todo := by rw [toNat_succ (by omega), hdrop]
      rw [dif_pos hk, hget, ih _ htodo', List.length_cons, List.foldl_cons]
      simp only [Nat.add_le_add_iff_right]

/-- A list of `2 ^ 32` ids or more: the counter wraps around, and the loop goes on for ever. -/
theorem singleLoop_endless {pidList : List PendingOperationId} (hlen : 2 ^ 32 ≤ pidList.length) (fuel : Nat)
    (k : UInt32) (L : AsyncLog) : singleLoop F pidList fuel k L = .running := by
  induction fuel generalizing k L with
  | zero => rfl
  | succ fuel ih =>
    have hk : k.toNat < pidList.length := lt_of_lt_of_le k.toNat_lt hlen
    unfold singleLoop
    rw [dif_pos hk]
    exact ih _ _

/-! ### The whole call -/

private theorem fillLoop_start (memory : Nat → UInt8) (pidList : List PendingOperationId) (size fuel : Nat)
    (hwrap : min pidList.length (size / 17) < 2 ^ 32) :
    fillLoop F pidList fuel 0 0 ((List.range size).map memory) =
      if fuel ≤ min pidList.length (size / 17) then .running
      else if size < 17 * pidList.length then .outside
      else .ended (pidList.flatMap F.completeRecord ++ ((List.range size).map memory).drop
      (17 * pidList.length)) := by
  have hlen : ((List.range size).map memory).length = size := by simp
  have hspec : fillLoop F pidList fuel 0 ([] : Bytes).length ([] ++ (List.range size).map memory) = _ :=
    fillLoop_spec fuel (List.drop_zero (l := pidList)) (by rw [hlen, UInt32.toNat_zero, Nat.zero_add]; exact hwrap)
  rw [hlen] at hspec
  exact hspec

/-- The buffer is filled exactly if it has room for the batch. -/
theorem result_fillLoop (memory : Nat → UInt8) {pidList : List PendingOperationId}
    (hnn : 0 ≤ localBuffSize pidList.length) :
    (fillLoop F pidList (pidList.length + 1) 0 0
        ((List.range (localBuffSize pidList.length).toNat).map memory)).result =
      if 17 * pidList.length < 2 ^ 32 then some (pidList.flatMap F.completeRecord) else none := by
  have hlt : (localBuffSize pidList.length).toNat < 2 ^ 31 := by
    have := castInt_lt (UInt64.ofNat (17 * pidList.length))
    unfold localBuffSize
    omega
  rw [fillLoop_start memory pidList _ _ (by omega), if_neg (by omega)]
  by_cases hfits : 17 * pidList.length < 2 ^ 32
  · have hsize := localBuffSize_of_fits hfits hnn
    rw [if_pos hfits, hsize, if_neg (Nat.lt_irrefl _), List.drop_of_length_le (by simp), List.append_nil]
    rfl
  · rw [if_neg hfits, if_pos (by omega)]
    rfl

/-- A buffer that is too small is overrun. -/
theorem massComplete_of_no_room (memory : Nat → UInt8) (L : AsyncLog) {malloc : Bool}
    {pidList : List PendingOperationId} (h : ¬ HasRoom malloc pidList) (fuel : Nat) :
    massComplete F malloc memory fuel L pidList =
      if fuel ≤ (localBuffSize pidList.length).toNat / 17 then .running else .outside := by
  unfold HasRoom Fits at h
  push Not at h
  obtain ⟨hm, hnn, hfit⟩ := h
  have hlt : (localBuffSize pidList.length).toNat < 2 ^ 31 := by
    have := castInt_lt (UInt64.ofNat (17 * pidList.length))
    unfold localBuffSize
    omega
  have hshort : (localBuffSize pidList.length).toNat < 17 * pidList.length := by omega
  have hmin : min pidList.length ((localBuffSize pidList.length).toNat / 17) =
      (localBuffSize pidList.length).toNat / 17 := by omega
  unfold massComplete
  rw [if_pos ⟨hm, hnn⟩, fillLoop_start memory pidList _ fuel (by omega), hmin, if_pos hshort]
  split <;> rfl

/-- A batch that is written whole and whose ids can be counted: the call takes one turn more than it has ids. -/
theorem massComplete_of_written (memory : Nat → UInt8) (L : AsyncLog) {malloc : Bool}
    {pidList : List PendingOperationId} (h : Written malloc pidList) (fuel : Nat) :
    massComplete F malloc memory fuel L pidList =
      if fuel ≤ pidList.length then .running else .ended (pidList.foldl (logComplete F) L) := by
  obtain ⟨hroom, hlen⟩ := h
  unfold massComplete
  by_cases hc : malloc = true ∧ 0 ≤ localBuffSize pidList.length
  · have hsize := localBuffSize_of_fits (hroom hc.1 hc.2) hc.2
    have hdiv : 17 * pidList.length / 17 = pidList.length := Nat.mul_div_cancel_left _ (by decide)
    rw [if_pos hc, hsize, fillLoop_start memory pidList _ fuel (by omega), hdiv, Nat.min_self,
      if_neg (Nat.lt_irrefl _), List.drop_of_length_le (by simp), List.append_nil, foldl_logComplete]
    split <;> rfl
  · rw [if_neg hc]
    exact singleLoop_spec hlen fuel L List.drop_zero

/-- A list of `2 ^ 32` ids or more is never logged to its end. -/
theorem massComplete_of_endless (memory : Nat → UInt8) (L : AsyncLog) {malloc : Bool}
    {pidList : List PendingOperationId} (h : HasRoom malloc pidList) (hlen : 2 ^ 32 ≤ pidList.length) (fuel : Nat) :
    massComplete F malloc memory fuel L pidList = .running := by
  have hc : ¬ (malloc = true ∧ 0 ≤ localBuffSize pidList.length) := by
    rintro ⟨hm, hnn⟩
    have hfits := h hm hnn
    unfold Fits at hfits
    omega
  unfold massComplete
  rw [if_neg hc, singleLoop_endless hlen]

/-- A call that ends has logged the ids one by one, and its batch was written whole. -/
theorem ended_massComplete {malloc : Bool} {memory : Nat → UInt8} {fuel : Nat} {L L' : AsyncLog}
    {pidList : List PendingOperationId} (h : massComplete F malloc memory fuel L pidList = .ended L') :
    L' = pidList.foldl (logComplete F) L ∧ Written malloc pidList := by
  by_cases hroom : HasRoom malloc pidList
  · by_cases hlen : pidList.length < 2 ^ 32
    · rw [massComplete_of_written memory L ⟨hroom, hlen⟩] at h
      split at h
      · cases h
      · cases h
        exact ⟨rfl, hroom, hlen⟩
    · rw [massComplete_of_endless memory L hroom (by omega)] at h
      cases h
  · rw [massComplete_of_no_room memory L hroom] at h
    split at h <;> cases h

/-- The batch operation returns exactly if its batch is written whole, and then the ids have been logged one by
one. -/
theorem logMassComplete_eq_some_iff {malloc : Bool} {L L' : AsyncLog} {pidList : List PendingOperationId} :
    logMassComplete F malloc L pidList = some L' ↔
      Written malloc pidList ∧ pidList.foldl (logComplete F) L = L' := by
  unfold logMassComplete
  constructor
  · intro h
    cases hrun : massComplete F malloc (fun _ => 0) (pidList.length + 1) L pidList with
    | running => rw [hrun] at h; cases h
    | outside => rw [hrun] at h; cases h
    | ended b =>
      rw [hrun] at h
      cases h
      obtain ⟨hb, hwritten⟩ := ended_massComplete hrun
      exact ⟨hwritten, hb.symm⟩
  · rintro ⟨hwritten, rfl⟩
    rw [massComplete_of_written _ L hwritten, if_neg (by omega)]
    rfl

theorem logMassComplete_of_written {malloc : Bool} {pidList : List PendingOperationId} (h : Written malloc pidList)
    (L : AsyncLog) : logMassComplete F malloc L pidList = some (pidList.foldl (logComplete F) L) :=
  logMassComplete_eq_some_iff.2 ⟨h, rfl⟩

/-- The size of the buffer is negative when bit 31 of the number of bytes is set. -/
theorem localBuffSize_nonneg_iff (n : Nat) : 0 ≤ localBuffSize n ↔ 17 * n % 2 ^ 32 < 2 ^ 31 := by
  have hmod : (UInt64.ofNat (17 * n)).toNat % 2 ^ 32 = 17 * n % 2 ^ 32 := by
    rw [UInt64.toNat_ofNat']
    exact Nat.mod_mod_of_dvd _ (by decide)
  unfold localBuffSize castInt
  rw [hmod]
  split <;> omega

theorem endsWith_foldl_iff (malloc : Bool) (memory : Nat → UInt8) (L : AsyncLog)
    (pidList : List PendingOperationId) :
    Progress.EndsWith (fun fuel => massComplete F malloc memory fuel L pidList) (pidList.foldl (logComplete F) L) ↔
      (malloc = true → 17 * pidList.length % 2 ^ 32 < 2 ^ 31 → 17 * pidList.length < 2 ^ 32) ∧
        pidList.length < 2 ^ 32 := by
  rw [← localBuffSize_nonneg_iff]
  constructor
  · rintro ⟨⟨fuel, hended⟩, -⟩
    exact (ended_massComplete hended).2
  · intro hwritten
    refine ⟨⟨pidList.length + 1, ?_⟩, fun fuel => ?_⟩
    · rw [massComplete_of_written memory L hwritten, if_neg (by omega)]
    · rw [massComplete_of_written memory L hwritten]
      split <;> simp

end AsyncLog

/-! ### The two members -/

namespace AsyncOperationLogger

variable (malloc : Bool) (memory : Nat → UInt8) (fuel : Nat) (lg : AsyncOperationLogger)
  (pidList : List PendingOperationId)

/-- `log_mass_enqueue_complete` -/
def massEnqueueComplete : Progress AsyncOperationLogger :=
  (lg.enqueueLog.massComplete enqueueFormat malloc memory fuel pidList).map fun L => { lg with enqueueLog := L }

/-- `log_mass_dequeue_complete` -/
def massDequeueComplete : Progress AsyncOperationLogger :=
  (lg.dequeueLog.massComplete dequeueFormat malloc memory fuel pidList).map fun L => { lg with dequeueLog := L }

/-- `log_enqueue_complete` for the ids one by one. -/
def enqueueCompletes : AsyncOperationLogger := pidList.foldl (fun lg k => lg.logEnqueueComplete k.1 k.2) lg

/-- `log_dequeue_complete` for the ids one by one. -/
def dequeueCompletes : AsyncOperationLogger := pidList.foldl (fun lg k => lg.logDequeueComplete k.1 k.2) lg

theorem enqueueCompletes_eq :
    lg.enqueueCompletes pidList =
      { lg with enqueueLog := pidList.foldl (AsyncLog.logComplete enqueueFormat) lg.enqueueLog } := by
  unfold enqueueCompletes
  induction pidList generalizing lg with
  | nil => rfl
  | cons k pidList ih => exact ih _

theorem dequeueCompletes_eq :
    lg.dequeueCompletes pidList =
      { lg with dequeueLog := pidList.foldl (AsyncLog.logComplete dequeueFormat) lg.dequeueLog } := by
  unfold dequeueCompletes
  induction pidList generalizing lg with
  | nil => rfl
  | cons k pidList ih => exact ih _

variable {malloc lg pidList} {lg' : AsyncOperationLogger}

theorem logMassEnqueueComplete_eq_some_iff :
    lg.logMassEnqueueComplete malloc pidList = some lg' ↔
      AsyncLog.Written malloc pidList ∧ lg.enqueueCompletes pidList = lg' := by
  unfold logMassEnqueueComplete
  rw [enqueueCompletes_eq, Option.map_eq_some_iff]
  simp only [AsyncLog.logMassComplete_eq_some_iff]
  constructor
  · rintro ⟨_, ⟨hw, rfl⟩, rfl⟩
    exact ⟨hw, rfl⟩
  · rintro ⟨hw, rfl⟩
    exact ⟨_, ⟨hw, rfl⟩, rfl⟩

theorem logMassDequeueComplete_eq_some_iff :
    lg.logMassDequeueComplete malloc pidList = some lg' ↔
      AsyncLog.Written malloc pidList ∧ lg.dequeueCompletes pidList = lg' := by
  unfold logMassDequeueComplete
  rw [dequeueCompletes_eq, Option.map_eq_some_iff]
  simp only [AsyncLog.logMassComplete_eq_some_iff]
  constructor
  · rintro ⟨_, ⟨hw, rfl⟩, rfl⟩
    exact ⟨hw, rfl⟩
  · rintro ⟨hw, rfl⟩
    exact ⟨_, ⟨hw, rfl⟩, rfl⟩

theorem logMassEnqueueDequeueComplete_eq_some_iff :
    lg.logMassEnqueueDequeueComplete malloc pidList = some lg' ↔
      AsyncLog.Written malloc pidList ∧ (lg.enqueueCompletes pidList).dequeueCompletes pidList = lg' := by
  unfold logMassEnqueueDequeueComplete
  simp only [Option.bind_eq_bind, Option.bind_eq_some_iff, logMassEnqueueComplete_eq_some_iff,
    logMassDequeueComplete_eq_some_iff]
  constructor
  · rintro ⟨_, ⟨hw, rfl⟩, -, rfl⟩
    exact ⟨hw, rfl⟩
  · rintro ⟨hw, rfl⟩
    exact ⟨_, ⟨hw, rfl⟩, hw, rfl⟩

variable (malloc lg pidList)

/-- Both batch operations log like the single operations exactly for the lists whose length is below `2 ^ 32` and
whose batch has less than `2 ^ 32` bytes or gets no buffer. -/
theorem batch_eq_singles_iff :
    (Progress.EndsWith (fun fuel => lg.massEnqueueComplete malloc memory fuel pidList) (lg.enqueueCompletes pidList) ↔
      (malloc = true → 17 * pidList.length % 2 ^ 32 < 2 ^ 31 → 17 * pidList.length < 2 ^ 32) ∧
        pidList.length < 2 ^ 32) ∧
    (Progress.EndsWith (fun fuel => lg.massDequeueComplete malloc memory fuel pidList) (lg.dequeueCompletes pidList) ↔
      (malloc = true → 17 * pidList.length % 2 ^ 32 < 2 ^ 31 → 17 * pidList.length < 2 ^ 32) ∧
        pidList.length < 2 ^ 32) := by
  constructor
  · rw [enqueueCompletes_eq, ← AsyncLog.endsWith_foldl_iff (F := enqueueFormat) malloc memory lg.enqueueLog]
    exact Progress.endsWith_map_iff (f := fun L : AsyncLog => { lg with enqueueLog := L })
      fun L L' h => congrArg enqueueLog h
  · rw [dequeueCompletes_eq, ← AsyncLog.endsWith_foldl_iff (F := dequeueFormat) malloc memory lg.dequeueLog]
    exact Progress.endsWith_map_iff (f := fun L : AsyncLog => { lg with dequeueLog := L })
      fun L L' h => congrArg dequeueLog h

/-- A batch of 252645136 ids has `2 ^ 32 + 16` bytes and gets a buffer of 16: the queue id of the first record is
stored over its end. -/
theorem batch_stored_outside :
    ∃ pidList : List PendingOperationId, pidList.length = 252645136 ∧
      massEnqueueComplete true (fun _ => 0) 1 {} pidList = .outside ∧
      massDequeueComplete true (fun _ => 0) 1 {} pidList = .outside ∧
      ¬ ∀ (malloc : Bool) (memory : Nat → UInt8) (lg : AsyncOperationLogger),
        Progress.EndsWith (fun fuel => lg.massEnqueueComplete malloc memory fuel pidList)
          (lg.enqueueCompletes pidList) ∧
        Progress.EndsWith (fun fuel => lg.massDequeueComplete malloc memory fuel pidList)
          (lg.dequeueCompletes pidList) := by
  have hlen : (List.replicate 252645136 ((1, 1) : PendingOperationId)).length = 252645136 := List.length_replicate
  generalize List.replicate 252645136 ((1, 1) : PendingOperationId) = pidList at hlen
  have hsize : AsyncLog.localBuffSize pidList.length = 16 := by
    rw [hlen]
    decide
  have hroom : ¬ AsyncLog.HasRoom true pidList := by
    intro h
    have hfits := h rfl (by rw [hsize]; decide)
    unfold AsyncLog.Fits at hfits
    omega
  have houtside : ∀ {α : Type} (F : LogFormat α),
      AsyncLog.massComplete F true (fun _ => 0) 1 {} pidList = .outside := fun F => by
    rw [AsyncLog.massComplete_of_no_room _ _ hroom, hsize]
    rfl
  have henqueue : massEnqueueComplete true (fun _ => 0) 1 {} pidList = .outside :=
    congrArg (Progress.map _) (houtside enqueueFormat)
  have hdequeue : massDequeueComplete true (fun _ => 0) 1 {} pidList = .outside :=
    congrArg (Progress.map _) (houtside dequeueFormat)
  exact ⟨pidList, hlen, henqueue, hdequeue, fun h => (h true (fun _ => 0) {}).1.inside 1 henqueue⟩

end AsyncOperationLogger

end BdbMsgStore
