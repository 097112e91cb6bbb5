import BdbMsgStore.Message

/-!
# Loading the content of a message

`JournalImpl::loadMsgContent` hands out a piece of the content of a stored message.  The offset of the content and its
size are 32-bit numbers, the offset of the piece is a 64-bit number, and the size of what is left is a difference
without a guard.  The piece is right when it starts within the content (`load_content_slice`); beyond its end the
difference wraps around.

The size of a stored value is a 32-bit number too, so of a message whose encoding has `2 ^ 32` bytes or more only a
few bytes are stored, not enough to read the header size.
-/

namespace BdbMsgStore

/-- `data.append(msgBuff.getPointer() + pos, n)`; `none` when this reads outside of the value. -/
def appendFrom (value : Bytes) (pos n : UInt64) : Option Bytes :=
  if pos.toNat + n.toNat ≤ value.length then some ((value.drop pos.toNat).take n.toNat) else none

/-- The piece of a stored value that `loadMsgContent` appends, in the arithmetic of the source. -/
def loadValue (value : Bytes) (length offset : UInt64) : Option Bytes :=
  -- the flag octet and the header size are read first
  if value.length < 5 then none
  else
    let headerSize : UInt32 := UInt32.ofNat (getLong (value.drop 1))
    let size : UInt32 := UInt32.ofNat value.length
    let contentOffset : UInt32 := (headerSize.toUInt64 + 5).toUInt32
    let contentSize : UInt64 := (size - contentOffset).toUInt64
    if contentOffset.toUInt64 + offset + length > size.toUInt64 then
      appendFrom value (contentOffset.toUInt64 + offset) (contentSize - offset)
    else appendFrom value (contentOffset.toUInt64 + offset) length

/-- The outcome of `loadMsgContent`: the message is not in the database, the append was to read outside of the stored
value (it throws or reads foreign memory), or the data was appended. -/
inductive LoadResult where
  | notFound
  | outside
  | data (bytes : Bytes)
  deriving DecidableEq

/-- `loadMsgContent` -/
def JournalImpl.loadMsgContent (j : JournalImpl) (rid length offset : UInt64) : LoadResult :=
  match j.find? rid with
  | none => .notFound
  | some value =>
    match loadValue value length offset with
    | none => .outside
    | some bytes => .data bytes

/-- Consecutive pieces of the given lengths, from `offset` on. -/
def JournalImpl.loadChunks (j : JournalImpl) (rid : UInt64) : List UInt32 → UInt64 → LoadResult
  | [], _ => .data []
  | length :: lengths, offset =>
    match j.loadMsgContent rid length.toUInt64 offset, j.loadChunks rid lengths (offset + length.toUInt64) with
    | .data bytes, .data rest => .data (bytes ++ rest)
    | .data _, r => r
    | r, _ => r

/-! ### One piece -/

section Piece

variable {m : Message} {length offset : UInt64}

/-- An append from a value of known size, with the result it should have. -/
private theorem appendFrom_eq_some_iff {value bytes : Bytes} {pos n : UInt64} :
    appendFrom value pos n = some bytes ↔
      pos.toNat + n.toNat ≤ value.length ∧ (value.drop pos.toNat).take n.toNat = bytes := by
  unfold appendFrom
  split
  · rename_i h
    simp [h]
  · rename_i h
    simp [h]

/-- Nothing is appended exactly if nothing is asked for. -/
private theorem appendFrom_eq_nil_iff {value : Bytes} {pos n : UInt64} :
    appendFrom value pos n = some [] ↔ n.toNat = 0 ∧ pos.toNat ≤ value.length := by
  rw [appendFrom_eq_some_iff]
  constructor
  · rintro ⟨hle, hnil⟩
    have hlen := congrArg List.length hnil
    rw [List.length_take, List.length_drop, List.length_nil] at hlen
    omega
  · rintro ⟨hn, hpos⟩
    rw [hn]
    exact ⟨hpos, rfl⟩

/-- The numbers that `loadMsgContent` computes from a stored message: where the content starts, the size of the value
and the size of the content. -/
private theorem loadValue_eq (h : m.header.length + m.content.length + 5 < 2 ^ 32) :
    ∃ contentOffset size contentSize : UInt64, contentOffset.toNat = m.header.length + 5 ∧
      size.toNat = m.header.length + m.content.length + 5 ∧ contentSize.toNat = m.content.length ∧
      loadValue (msgEncode m) length offset =
        if contentOffset + offset + length > size then
          appendFrom (msgEncode m) (contentOffset + offset) (contentSize - offset)
        else appendFrom (msgEncode m) (contentOffset + offset) length := by
  have hheader : (UInt32.ofNat m.header.length).toUInt64.toNat = m.header.length := by
    rw [UInt32.toNat_toUInt64, UInt32.toNat_ofNat', Nat.mod_eq_of_lt (by omega)]
  have hoffset : ((UInt32.ofNat m.header.length).toUInt64 + 5).toUInt32.toNat = m.header.length + 5 := by
    rw [UInt64.toNat_toUInt32, UInt64.toNat_add, hheader]
    simp only [UInt64.reduceToNat]
    omega
  have hsize : (UInt32.ofNat (msgEncode m).length).toNat = m.header.length + m.content.length + 5 := by
    rw [UInt32.toNat_ofNat', length_msgEncode, Nat.mod_eq_of_lt (by omega)]
  have hcontent : (UInt32.ofNat (msgEncode m).length -
      ((UInt32.ofNat m.header.length).toUInt64 + 5).toUInt32).toNat = m.content.length := by
    rw [UInt32.toNat_sub_of_le _ _ (UInt32.le_iff_toNat_le.2 (by omega)), hsize, hoffset]
    omega
  refine ⟨_, _, _, (UInt32.toNat_toUInt64 _).trans hoffset, (UInt32.toNat_toUInt64 _).trans hsize,
    (UInt32.toNat_toUInt64 _).trans hcontent, ?_⟩
  unfold loadValue
  rw [if_neg (by rw [length_msgEncode]; omega), getLong_msgEncode]

/-- From the start of the content on, a stored message is its content. -/
private theorem drop_content (n : Nat) : (msgEncode m).drop (m.header.length + 5 + n) = m.content.drop n := by
  rw [show m.header.length + 5 + n = 5 + (m.header.length + n) by omega, ← List.drop_drop, (drop_msgEncode m).2,
    ← List.drop_drop, List.drop_left]

/-- A piece that starts within the content. -/
private theorem loadValue_within (h : m.header.length + m.content.length + 5 < 2 ^ 32) (hlen : length.toNat < 2 ^ 32)
    (hoff : offset.toNat ≤ m.content.length) :
    loadValue (msgEncode m) length offset = some ((m.content.drop offset.toNat).take length.toNat) := by
  obtain ⟨contentOffset, size, contentSize, hco, hs, hcs, heq⟩ := loadValue_eq h
  have hpos : (contentOffset + offset).toNat = m.header.length + 5 + offset.toNat := by
    rw [UInt64.toNat_add, hco]
    omega
  have hsum : (contentOffset + offset + length).toNat = m.header.length + 5 + offset.toNat + length.toNat := by
    rw [UInt64.toNat_add, hpos]
    omega
  have hleft : (contentSize - offset).toNat = m.content.length - offset.toNat := by
    rw [UInt64.toNat_sub_of_le _ _ (UInt64.le_iff_toNat_le.2 (by omega)), hcs]
  rw [heq]
  split
  · -- the piece reaches beyond the end
    rename_i hgt
    rw [gt_iff_lt, UInt64.lt_iff_toNat_lt, hsum, hs] at hgt
    rw [appendFrom_eq_some_iff, hpos, hleft, length_msgEncode, drop_content]
    refine ⟨by omega, ?_⟩
    rw [List.take_of_length_le (by rw [List.length_drop]), List.take_of_length_le (by rw [List.length_drop]; omega)]
  · rename_i hle
    rw [gt_iff_lt, UInt64.lt_iff_toNat_lt, hsum, hs] at hle
    rw [appendFrom_eq_some_iff, hpos, length_msgEncode, drop_content]
    exact ⟨by omega, rfl⟩

/-- A piece that starts beyond the end of the content is empty only if it is asked to be, and the sum wraps around. -/
private theorem loadValue_beyond (h : m.header.length + m.content.length + 5 < 2 ^ 32)
    (hoff : m.content.length < offset.toNat) :
    loadValue (msgEncode m) length offset = some [] ↔
      length.toNat = 0 ∧ 2 ^ 64 ≤ m.header.length + 5 + offset.toNat := by
  obtain ⟨contentOffset, size, contentSize, hco, hs, hcs, heq⟩ := loadValue_eq h
  have hoff' := offset.toNat_lt
  have hpos : (contentOffset + offset).toNat = (m.header.length + 5 + offset.toNat) % 2 ^ 64 := by
    rw [UInt64.toNat_add, hco]
  have hsum : (contentOffset + offset + length).toNat =
      ((m.header.length + 5 + offset.toNat) % 2 ^ 64 + length.toNat) % 2 ^ 64 := by
    rw [UInt64.toNat_add, hpos]
  have hleft : (contentSize - offset).toNat ≠ 0 := by
    rw [UInt64.toNat_sub, hcs]
    omega
  rw [heq]
  split
  · rename_i hgt
    rw [gt_iff_lt, UInt64.lt_iff_toNat_lt, hsum, hs] at hgt
    rw [appendFrom_eq_nil_iff]
    refine iff_of_false (fun hnil => hleft hnil.1) fun hwrap => ?_
    omega
  · rename_i hle
    rw [gt_iff_lt, UInt64.lt_iff_toNat_lt, hsum, hs] at hle
    rw [appendFrom_eq_nil_iff, hpos, length_msgEncode]
    omega

end Piece

namespace JournalImpl

variable {j : JournalImpl} {rid : UInt64} {m : Message}

/-- The message fits into a stored value, and the piece starts within the content; or nothing is asked for and the
offset wraps around to the front of the value. -/
def Loadable (m : Message) (length : UInt32) (offset : UInt64) : Prop :=
  m.header.length + m.content.length + 5 < 2 ^ 32 ∧
    (offset.toNat ≤ m.content.length ∨ (length.toNat = 0 ∧ 2 ^ 64 ≤ m.header.length + 5 + offset.toNat))

private theorem loadMsgContent_eq_data_iff {value bytes : Bytes} (h : j.find? rid = some value)
    (length offset : UInt64) :
    j.loadMsgContent rid length offset = .data bytes ↔ loadValue value length offset = some bytes := by
  unfold loadMsgContent
  simp only [h]
  cases loadValue value length offset with
  | none => simp
  | some bytes' => simp

private theorem loadMsgContent_iff (hm : j.find? rid = some (dbtValue (msgEncode m))) (length : UInt32)
    (offset : UInt64) :
    j.loadMsgContent rid length.toUInt64 offset = .data ((m.content.drop offset.toNat).take length.toNat) ↔
      Loadable m length offset := by
  have hlen : length.toUInt64.toNat < 2 ^ 32 := by
    rw [UInt32.toNat_toUInt64]
    exact length.toNat_lt
  rw [loadMsgContent_eq_data_iff hm]
  unfold Loadable
  by_cases hsize : m.header.length + m.content.length + 5 < 2 ^ 32
  · rw [dbtValue_msgEncode hsize, and_iff_right hsize]
    rcases Nat.lt_or_ge m.content.length offset.toNat with hoff | hoff
    · rw [List.drop_of_length_le (Nat.le_of_lt hoff), List.take_nil, loadValue_beyond hsize hoff,
        UInt32.toNat_toUInt64, or_iff_right (Nat.not_le.2 hoff)]
    · rw [loadValue_within hsize hlen hoff, UInt32.toNat_toUInt64]
      exact iff_of_true rfl (Or.inl hoff)
  · -- the stored value is too short for the header size
    refine iff_of_false (fun hload => ?_) fun h => hsize h.1
    unfold loadValue at hload
    rw [if_pos (length_dbtValue_msgEncode hsize)] at hload
    cases hload

/-! ### Consecutive pieces -/

private theorem loadChunks_eq (hm : j.find? rid = some (dbtValue (msgEncode m)))
    (hsize : m.header.length + m.content.length + 5 < 2 ^ 32) {lengths : List UInt32} {offset : UInt64}
    (hstart : ∀ init, init <+: lengths → init ≠ lengths →
      offset.toNat + (init.map UInt32.toNat).sum ≤ m.content.length) :
    j.loadChunks rid lengths offset =
      .data ((m.content.drop offset.toNat).take (lengths.map UInt32.toNat).sum) := by
  induction lengths generalizing offset with
  | nil => simp [loadChunks]
  | cons n lengths ih =>
    have hoff : offset.toNat ≤ m.content.length := by
      simpa using hstart [] List.nil_prefix (by simp)
    have hn := n.toNat_lt
    have hnext : (offset + n.toUInt64).toNat = offset.toNat + n.toNat := by
      rw [UInt64.toNat_add, UInt32.toNat_toUInt64]
      omega
    have hfirst := (loadMsgContent_iff hm n offset).2 ⟨hsize, Or.inl hoff⟩
    have hrest := ih fun init hinit hne => by
      rw [hnext]
      have := hstart (n :: init) (List.cons_prefix_cons.2 ⟨rfl, hinit⟩) (by simpa using hne)
      rw [List.map_cons, List.sum_cons] at this
      omega
    unfold loadChunks
    rw [hfirst, hrest, hnext, List.map_cons, List.sum_cons, List.take_add, List.drop_drop]

/-- A piece of a stored message is right exactly if it is loadable, and pieces that follow each other and start within
the content make up the content. -/
theorem load_content_slice (j : JournalImpl) (rid : UInt64) (m : Message)
    (hm : j.find? rid = some (dbtValue (msgEncode m))) :
    (∀ (length : UInt32) (offset : UInt64),
      j.loadMsgContent rid length.toUInt64 offset = .data ((m.content.drop offset.toNat).take length.toNat) ↔
        Loadable m length offset) ∧
    ∀ lengths : List UInt32, m.header.length + m.content.length + 5 < 2 ^ 32 →
      (∀ init, init <+: lengths → init ≠ lengths → (init.map UInt32.toNat).sum ≤ m.content.length) →
      j.loadChunks rid lengths 0 = .data (m.content.take (lengths.map UInt32.toNat).sum) := by
  refine ⟨loadMsgContent_iff hm, fun lengths hsize hstart => ?_⟩
  have h : j.loadChunks rid lengths 0 = .data ((m.content.drop 0).take (lengths.map UInt32.toNat).sum) :=
    loadChunks_eq hm hsize fun init hinit hne => by simpa using hstart init hinit hne
  rw [h, List.drop_zero]

/-- A journal with one database that holds the message with the given id. -/
private def holding (rid : UInt64) (m : Message) : JournalImpl := (empty 0).storeMsg rid (msgEncode m)

private theorem find?_holding (rid : UInt64) (m : Message) :
    (holding rid m).find? rid = some (dbtValue (msgEncode m)) := by
  unfold holding
  rw [find?_storeMsg, if_pos rfl, find?_empty]
  rfl

/-- A message with two bytes of header and three of content. -/
private def fiveByteMessage : Message := ⟨[1, 2], [3, 4, 5], true, by decide⟩

theorem load_content_slice_short :
    (holding 7 fiveByteMessage).loadMsgContent 7 2 1 = .data [4, 5] ∧
      (holding 7 fiveByteMessage).loadChunks 7 [2, 2] 0 = .data [3, 4, 5] := by
  obtain ⟨hpiece, hchunks⟩ := load_content_slice _ 7 fiveByteMessage (find?_holding 7 fiveByteMessage)
  refine ⟨(hpiece 2 1).2 ⟨by decide, Or.inl (by decide)⟩, hchunks [2, 2] (by decide) fun init hinit hne => ?_⟩
  rcases List.prefix_cons_iff.1 hinit with rfl | ⟨init', rfl, hinit'⟩
  · decide
  · rcases List.prefix_cons_iff.1 hinit' with rfl | ⟨init'', rfl, hinit''⟩
    · decide
    · rw [List.prefix_nil.1 hinit''] at hne
      exact absurd rfl hne

/-- A piece at an offset beyond the end of the content reads outside of the stored value. -/
theorem load_beyond_content :
    ¬ ∀ (j : JournalImpl) (rid : UInt64) (m : Message), j.find? rid = some (dbtValue (msgEncode m)) →
      ∀ (length : UInt32) (offset : UInt64),
        j.loadMsgContent rid length.toUInt64 offset = .data ((m.content.drop offset.toNat).take length.toNat) := by
  intro hslice
  have hload := hslice _ 7 fiveByteMessage (find?_holding 7 fiveByteMessage) 1 4
  exact absurd hload (by decide)

end JournalImpl

end BdbMsgStore
