import BdbMsgStore.LogReplay

/-!
# The records of a file

Whatever bytes a file holds, reading it is the replay of a list of records: those that the loop of
`extractPending…FromFile` takes from it one after the other (`LogFormat.records`).  So everything that is known about
replays of records holds for all contents of the files, and not only for those that the logger has written.

A file that was cut at any point gives the records that lie before the cut: a part of a record at its end has no
effect, and it is read without an exception (`extractLoop_take`).
-/

namespace BdbMsgStore

open KeyedLog Words

namespace LogFormat

variable {α : Type} (F : LogFormat α)

/-- The records that the loop of `extractPending…FromFile` takes from the bytes. -/
def parseLoop : Nat → Bytes → List (LogRecord α)
  | 0, _ => []
  | _ + 1, [] => []
  | fuel + 1, opcode :: bytes =>
    if opcode = F.startOp then
      match F.readStart bytes with
      | some (a, rest) => .start (F.opId a) a :: parseLoop fuel rest
      | none => []
    else if opcode = F.completeOp then
      match readIds bytes with
      | some (k, rest) => .complete k :: parseLoop fuel rest
      | none => []
    else parseLoop fuel bytes

/-- The records of a file. -/
def records (bytes : Bytes) : List (LogRecord α) := F.parseLoop bytes.length bytes

/-! ### Reading is replaying -/

/-- The maps are those of the replay; an exception ends the loop like the end of the file. -/
theorem extractLoop_eq_foldl (fuel : Nat) (bytes : Bytes) (x : Extracted α) :
    F.extractLoop fuel bytes x =
      { (F.parseLoop fuel bytes).foldl F.readRecord x with thrown := (F.extractLoop fuel bytes x).thrown } := by
  induction fuel generalizing bytes x with
  | zero => rfl
  | succ fuel ih =>
    cases bytes with
    | nil => rfl
    | cons opcode bytes =>
      unfold extractLoop parseLoop
      by_cases hs : opcode = F.startOp
      · rw [if_pos hs, if_pos hs]
        by_cases ht : F.startThrows bytes = true
        · rw [if_pos ht, F.readStart_of_throws ht]
          rfl
        · rw [if_neg ht]
          cases hr : F.readStart bytes with
          | none => rfl
          | some r => exact ih r.2 _
      · rw [if_neg hs, if_neg hs]
        by_cases hc : opcode = F.completeOp
        · rw [if_pos hc, if_pos hc]
          cases hr : readIds bytes with
          | none => rfl
          | some r => exact ih r.2 _
        · rw [if_neg hc, if_neg hc]
          exact ih bytes x

/-- Whatever a file holds, the maps that are read from it are those of the replay of its records. -/
theorem extractPendingFromFile_eq_foldl (bytes : Bytes) (x : Extracted α) :
    F.extractPendingFromFile bytes x =
      { (F.records bytes).foldl F.readRecord x with thrown := (F.extractPendingFromFile bytes x).thrown } :=
  F.extractLoop_eq_foldl bytes.length bytes x

/-- It makes no difference to the maps whether an exception was thrown before. -/
theorem foldl_thrown (rs : List (LogRecord α)) (x : Extracted α) (b : Bool) :
    rs.foldl F.readRecord { x with thrown := b } = { rs.foldl F.readRecord x with thrown := b } := by
  induction rs generalizing x with
  | nil => rfl
  | cons r rs ih =>
    rw [List.foldl_cons, List.foldl_cons, ← ih]
    congr 1
    cases r with
    | start k a =>
      show F.readStartRecord { x with thrown := b } a = { F.readStartRecord x a with thrown := b }
      unfold readStartRecord
      dsimp only
      split <;> rfl
    | complete k =>
      show readCompleteRecord { x with thrown := b } k = { readCompleteRecord x k with thrown := b }
      unfold readCompleteRecord
      dsimp only
      split <;> rfl

private theorem keyed_parseLoop (fuel : Nat) (bytes : Bytes) : ∀ r ∈ F.parseLoop fuel bytes, F.Keyed r := by
  induction fuel generalizing bytes with
  | zero => intro r hr; cases hr
  | succ fuel ih =>
    intro r hr
    cases bytes with
    | nil => cases hr
    | cons opcode bytes =>
      unfold parseLoop at hr
      split at hr
      · split at hr
        · rcases List.mem_cons.1 hr with rfl | hr
          · rfl
          · exact ih _ r hr
        · cases hr
      · split at hr
        · split at hr
          · rcases List.mem_cons.1 hr with rfl | hr
            · trivial
            · exact ih _ r hr
          · cases hr
        · exact ih _ r hr

theorem keyed_records (bytes : Bytes) : ∀ r ∈ F.records bytes, F.Keyed r := F.keyed_parseLoop bytes.length bytes

/-- What reading one file says about a key: the replay of the file's records of the key. -/
theorem status_extract (bytes : Bytes) (k : PendingOperationId) :
    (F.extractPendingFromFile bytes .empty).status k = replayKey k (F.records bytes) := by
  rw [extractPendingFromFile_eq_foldl]
  exact F.status_foldl (Extracted.wf_empty F).disjoint (F.keyed_records bytes) k

/-- What reading two files says about a key. -/
theorem status_extract_extract (bytes bytes' : Bytes) (k : PendingOperationId) :
    (F.extractPendingFromFile bytes' (F.extractPendingFromFile bytes .empty)).status k =
      replayKey k (F.records bytes ++ F.records bytes') := by
  have hkeyed : ∀ r ∈ F.records bytes ++ F.records bytes', F.Keyed r := fun r hr =>
    (List.mem_append.1 hr).elim (F.keyed_records _ r) (F.keyed_records _ r)
  rw [extractPendingFromFile_eq_foldl _ bytes', extractPendingFromFile_eq_foldl _ bytes, foldl_thrown,
    ← List.foldl_append]
  exact F.status_foldl (Extracted.wf_empty F).disjoint hkeyed k

theorem find?_extract (bytes : Bytes) (k : PendingOperationId) :
    TwoLevel.find? (F.extractPendingFromFile bytes .empty).pending k.2 k.1 =
      (replayKey k (F.records bytes)).pending? := by
  rw [← F.status_extract bytes k, Extracted.pending?_status]

/-! ### The loop ends -/

/-- Every turn takes a byte, so more turns than bytes change nothing. -/
theorem parseLoop_of_length_le {fuel : Nat} {bytes : Bytes} (h : bytes.length ≤ fuel) :
    F.parseLoop fuel bytes = F.records bytes := by
  unfold records
  generalize hn : bytes.length = n at h
  have hle : bytes.length ≤ n := le_of_eq hn
  clear hn
  induction n generalizing fuel bytes with
  | zero =>
    obtain rfl : bytes = [] := List.eq_nil_of_length_eq_zero (Nat.le_zero.1 hle)
    cases fuel <;> rfl
  | succ n ih =>
    obtain ⟨fuel, rfl⟩ : ∃ m, fuel = m + 1 := ⟨fuel - 1, by omega⟩
    cases bytes with
    | nil => rfl
    | cons opcode bytes =>
      rw [List.length_cons] at hle
      unfold parseLoop
      by_cases hs : opcode = F.startOp
      · rw [if_pos hs, if_pos hs]
        cases hr : F.readStart bytes with
        | none => rfl
        | some r =>
          have hlen := F.length_of_readStart hr
          exact congrArg _ (ih (by omega) (by omega))
      · rw [if_neg hs, if_neg hs]
        by_cases hc : opcode = F.completeOp
        · rw [if_pos hc, if_pos hc]
          cases hr : readIds bytes with
          | none => rfl
          | some r =>
            have hlen := length_of_readIds hr
            exact congrArg _ (ih (by omega) (by omega))
        · rw [if_neg hc, if_neg hc]
          exact ih (by omega) (by omega)

/-! ### Whole records -/

@[simp] theorem records_nil : F.records [] = [] := rfl

private theorem parseLoop_encode {r : LogRecord α} (hr : F.Keyed r) (rest : Bytes) (fuel : Nat) :
    F.parseLoop (fuel + 1) (F.encode r ++ rest) = r :: F.parseLoop fuel rest := by
  cases r with
  | start k a =>
    show F.parseLoop (fuel + 1) (F.startOp :: (F.startBytes a ++ rest)) = _
    have hk : k = F.opId a := hr
    simp only [parseLoop, ↓reduceIte, F.readStart_startBytes, hk]
  | complete k =>
    show F.parseLoop (fuel + 1) (F.completeOp :: (idBytes k ++ rest)) = _
    simp only [parseLoop, F.startOp_ne.symm, ↓reduceIte, readIds_idBytes]

theorem records_encode_append {r : LogRecord α} (hr : F.Keyed r) (rest : Bytes) :
    F.records (F.encode r ++ rest) = r :: F.records rest := by
  have hpos := F.encode_length_pos r
  have hlen : (F.encode r ++ rest).length = (F.encode r ++ rest).length - 1 + 1 := by
    rw [List.length_append]
    omega
  unfold records
  rw [hlen, F.parseLoop_encode hr, F.parseLoop_of_length_le]
  · rfl
  · rw [List.length_append]
    omega

/-- The records that the logger has written are read back, whatever follows them. -/
theorem records_encodeAll_append {rs : List (LogRecord α)} (hrs : ∀ r ∈ rs, F.Keyed r) (rest : Bytes) :
    F.records (F.encodeAll rs ++ rest) = rs ++ F.records rest := by
  induction rs with
  | nil => rfl
  | cons r rs ih =>
    have hcons : F.encodeAll (r :: rs) = F.encode r ++ F.encodeAll rs := List.flatMap_cons
    rw [hcons, List.append_assoc, F.records_encode_append (hrs r (List.mem_cons_self ..)),
      ih fun r' hr' => hrs r' (List.mem_cons_of_mem _ hr')]
    rfl

theorem records_encodeAll {rs : List (LogRecord α)} (hrs : ∀ r ∈ rs, F.Keyed r) :
    F.records (F.encodeAll rs) = rs := by
  have h := F.records_encodeAll_append hrs []
  rwa [List.append_nil, records_nil, List.append_nil] at h

/-! ### Torn records -/

/-- The reader of a start record fails on a record that was cut. -/
def PrefixFree : Prop := ∀ a l, l <+: F.startBytes a → l ≠ F.startBytes a → F.readStart l = none

theorem readIds_of_length_lt {l : Bytes} (h : l.length < 16) : readIds l = none := by
  unfold readIds read
  rw [if_neg (by omega)]
  rfl

variable {F}

/-- A record that was cut has no effect, and it throws nothing. -/
theorem extractLoop_of_prefix (hF : F.PrefixFree) {r : LogRecord α} {l : Bytes} (hl : l <+: F.encode r)
    (hne : l ≠ F.encode r) (fuel : Nat) (x : Extracted α) : F.extractLoop fuel l x = x := by
  cases fuel with
  | zero => rfl
  | succ fuel =>
    cases l with
    | nil => rfl
    | cons opcode l =>
      cases r with
      | start k a =>
        obtain ⟨hop, hl'⟩ := List.cons_prefix_cons.1 hl
        have hne' : l ≠ F.startBytes a := fun he => hne (by rw [hop, he]; rfl)
        have hthrows : F.startThrows l = false := F.startThrows_of_prefix (hl'.trans (List.prefix_append _ []))
        unfold extractLoop
        rw [if_pos hop, hthrows, if_neg Bool.false_ne_true, hF a l hl' hne']
      | complete k =>
        obtain ⟨hop, hl'⟩ := List.cons_prefix_cons.1 hl
        have hne' : l ≠ idBytes k := fun he => hne (by rw [hop, he]; rfl)
        have hlt : l.length < 16 := by
          have hle := hl'.length_le
          rw [length_idBytes] at hle
          refine lt_of_le_of_ne hle fun he => hne' (hl'.eq_of_length ?_)
          rw [he, length_idBytes]
        unfold extractLoop
        rw [if_neg (by rw [hop]; exact F.startOp_ne.symm), if_pos hop, readIds_of_length_lt hlt]

variable (F)

/-- The records that lie wholly within the first `n` bytes. -/
def wholeWithin : Nat → List (LogRecord α) → List (LogRecord α)
  | _, [] => []
  | n, r :: rs => if (F.encode r).length ≤ n then r :: wholeWithin (n - (F.encode r).length) rs else []

variable {F}

/-- A file that was cut after `n` bytes is read as the records that lie wholly within them. -/
theorem extractLoop_take (hF : F.PrefixFree) {rs : List (LogRecord α)} {n fuel : Nat}
    (hfuel : ((F.encodeAll rs).take n).length ≤ fuel) (x : Extracted α) :
    F.extractLoop fuel ((F.encodeAll rs).take n) x = (F.wholeWithin n rs).foldl F.readRecord x := by
  induction rs generalizing n fuel x with
  | nil =>
    rw [encodeAll_nil, List.take_nil]
    cases fuel <;> rfl
  | cons r rs ih =>
    have hcons : F.encodeAll (r :: rs) = F.encode r ++ F.encodeAll rs := List.flatMap_cons
    rw [hcons, List.take_append] at hfuel ⊢
    rw [wholeWithin]
    split
    · rename_i hn
      have hpos := F.encode_length_pos r
      rw [List.take_of_length_le hn] at hfuel ⊢
      rw [List.length_append] at hfuel
      obtain ⟨fuel, rfl⟩ : ∃ m, fuel = m + 1 := ⟨fuel - 1, by omega⟩
      rw [F.extractLoop_encode, List.foldl_cons]
      exact ih (by omega) _
    · rename_i hn
      have hzero : n - (F.encode r).length = 0 := by omega
      rw [hzero, List.take_zero, List.append_nil]
      refine extractLoop_of_prefix hF (List.take_prefix ..) (fun he => hn ?_) fuel x
      have hlen := congrArg List.length he
      rw [List.length_take] at hlen
      omega

end LogFormat

/-- What `recoverAsync…` returns for a key, whatever the files hold: the replay of file 0 and then file 1. -/
theorem AsyncLog.find?_recoverAsync {α : Type} (F : LogFormat α) (L : AsyncLog) (k : PendingOperationId) :
    TwoLevel.find? (L.recoverAsync F).1 k.2 k.1 =
      (replayKey k (F.records (L.file 0) ++ F.records (L.file 1))).pending? := by
  rw [← F.status_extract_extract, LogFormat.Extracted.pending?_status]
  rfl

/-! ### The two formats -/

theorem dequeueFormat_prefixFree : dequeueFormat.PrefixFree := by
  intro pad l hl hne
  have hle := hl.length_le
  have hlen : (dequeueFormat.startBytes pad).length = 16 := length_idBytes _
  have hlt : l.length < 16 := by
    rw [hlen] at hle
    refine lt_of_le_of_ne hle fun he => hne (hl.eq_of_length ?_)
    rw [he, hlen]
  show (readIds l).map _ = none
  rw [LogFormat.readIds_of_length_lt hlt]
  rfl

theorem enqueueFormat_prefixFree : enqueueFormat.PrefixFree := by
  intro pae l hl hne
  show readEnqueueStart l = none
  obtain ⟨rest, hrest⟩ := hl
  replace hrest : l ++ rest = enqueuePreamble pae ++ pae.buff := hrest
  have hne' : rest ≠ [] := fun he => hne (by rw [he, List.append_nil] at hrest; exact hrest)
  have hpre : (enqueuePreamble pae).length = 25 := by simp [enqueuePreamble, length_idBytes]
  unfold readEnqueueStart
  by_cases hlen : l.length < 25
  · -- the preamble is cut
    have hread : read 25 l = none := by
      unfold read
      rw [if_neg (by omega)]
    rw [hread]
  · -- the payload is cut
    obtain ⟨payload, hl⟩ : ∃ payload, l = enqueuePreamble pae ++ payload := by
      refine ⟨l.drop 25, ?_⟩
      have htake : l.take 25 = enqueuePreamble pae := by
        have h := congrArg (List.take 25) hrest
        rwa [List.take_append_of_le_length (by omega), List.take_left' hpre] at h
      rw [← htake, List.take_append_drop]
    rw [hl, List.append_assoc] at hrest
    have hbuff := congrArg List.length (List.append_cancel_left hrest)
    rw [List.length_append] at hbuff
    have hpos := List.length_pos_iff.2 hne'
    rw [hl, read_append hpre]
    simp only [enqueuePreamble_size]
    rw [dif_neg]
    rw [pae.size_eq]
    omega

end BdbMsgStore
