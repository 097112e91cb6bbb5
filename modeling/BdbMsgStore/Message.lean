import BdbMsgStore.JournalImpl

/-!
# Messages and their stored form

A broker message as far as the store sees it: what `encode` writes, cut into header and content, and whether the
message is persistent.  `msgEncode` puts the transient flag and the header size in front; `decodeAndRecoverMsg`
reads them back.
-/

namespace BdbMsgStore

open Words

/-- A message of the broker.  `encodedSize` is a 32-bit number. -/
structure Message where
  header : Bytes
  content : Bytes
  persistent : Bool
  size_lt : header.length + content.length < 2 ^ 32
  deriving DecidableEq

/-- `Buffer::putLong`: 32 bits, most significant byte first. -/
def putLong (x : Nat) : Bytes := (toBytes 4 x).reverse

/-- `Buffer::getLong` -/
def getLong (bytes : Bytes) : Nat := ofBytes (bytes.take 4).reverse

theorem getLong_putLong {x : Nat} (h : x < 2 ^ 32) (rest : Bytes) : getLong (putLong x ++ rest) = x := by
  unfold getLong putLong
  rw [List.take_left' (by simp), List.reverse_reverse, ofBytes_toBytes]
  exact Nat.mod_eq_of_lt h

/-- `msgEncode`: the transient flag, the header size, and what the message encodes itself. -/
def msgEncode (m : Message) : Bytes :=
  (if m.persistent then 0 else 1) :: (putLong m.header.length ++ (m.header ++ m.content))

/-- The flag octet in front of a stored message. -/
def transientFlag (bytes : Bytes) : Bool := bytes.headD 0 != 0

/-- The header of a stored message, as it is handed to `recoverMessage`. -/
def storedHeader (bytes : Bytes) : Bytes := (bytes.drop 5).take (getLong (bytes.drop 1))

/-- The content of a stored message, as it is handed to `decodeContent`. -/
def storedContent (bytes : Bytes) : Bytes := (bytes.drop 5).drop (getLong (bytes.drop 1))

variable (m : Message)

theorem transientFlag_msgEncode : transientFlag (msgEncode m) = !m.persistent := by
  unfold transientFlag msgEncode
  cases m.persistent <;> rfl

theorem drop_msgEncode : (msgEncode m).drop 1 = putLong m.header.length ++ (m.header ++ m.content) ∧
    (msgEncode m).drop 5 = m.header ++ m.content := by
  refine ⟨rfl, ?_⟩
  have h4 : (putLong m.header.length).length = 4 := by simp [putLong]
  unfold msgEncode
  rw [List.drop_succ_cons, List.drop_left' h4]

theorem getLong_msgEncode : getLong ((msgEncode m).drop 1) = m.header.length := by
  have := m.size_lt
  rw [(drop_msgEncode m).1, getLong_putLong (by omega)]

theorem storedHeader_msgEncode : storedHeader (msgEncode m) = m.header := by
  unfold storedHeader
  rw [getLong_msgEncode, (drop_msgEncode m).2, List.take_left]

theorem storedContent_msgEncode : storedContent (msgEncode m) = m.content := by
  unfold storedContent
  rw [getLong_msgEncode, (drop_msgEncode m).2, List.drop_left]

theorem length_msgEncode : (msgEncode m).length = m.header.length + m.content.length + 5 := by
  simp only [msgEncode, putLong, List.length_cons, List.length_append, List.length_reverse, length_toBytes]
  omega

/-- The encoded message is smaller than `2 ^ 32` bytes, so that a database keeps all of it. -/
def Message.Storable : Prop := m.header.length + m.content.length + 5 < 2 ^ 32

instance Message.instDecidableStorable : Decidable m.Storable := inferInstanceAs (Decidable (_ < _))

variable {m} in
theorem dbtValue_msgEncode (h : m.Storable) : dbtValue (msgEncode m) = msgEncode m :=
  dbtValue_of_lt (by rw [length_msgEncode]; exact h)

variable {m} in
/-- Of a larger one the database keeps at most four bytes, less than the flag and the header size. -/
theorem length_dbtValue_msgEncode (h : ¬ m.Storable) : (dbtValue (msgEncode m)).length < 5 := by
  have := m.size_lt
  unfold Message.Storable at h
  unfold dbtValue
  rw [List.length_take, length_msgEncode]
  omega

/-- The pending operation that `enqueue` logs for the message. -/
def Message.pending (pid qid : UInt64) : PendingAsyncEnqueue where
  msgId := pid
  queueId := qid
  buff := msgEncode m
  size := UInt64.ofNat (msgEncode m).length
  transient := !m.persistent
  size_eq := by
    have := m.size_lt
    rw [UInt64.toNat_ofNat', Nat.mod_eq_of_lt]
    rw [length_msgEncode]
    omega
  size_le := by
    have := m.size_lt
    rw [length_msgEncode]
    unfold maxBuffSize
    omega

end BdbMsgStore
