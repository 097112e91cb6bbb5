import BdbMsgStore.Configuration
import BdbMsgStore.Lib.MultiMap

/-!
# Bindings

A binding is a record of `bindingDb` under the id of its exchange; the value has the id and the name of the queue, the
routing key and the arguments, written one after the other by `BindingDbt`.  Four functions take such a value apart
again: `deleteBindingsForQueue`, which reads the id of the queue, `deleteBinding`, which reads up to the routing key,
and `recoverBindings`, which reads all of it.

How the broker writes and reads the arguments is given by a `FieldTables`.
-/

namespace BdbMsgStore

open Words

/-! ### The value of a binding -/

/-- `Buffer::putLongLong`: most significant byte first. -/
def putLongLong (x : UInt64) : Bytes := (u64Bytes x).reverse

/-- `Buffer::getLongLong` -/
def getLongLong (bytes : Bytes) : UInt64 := UInt64.ofNat (ofBytes (bytes.take 8).reverse)

/-- `Buffer::putShortString`: the length in one byte. -/
def putShortString (str : Bytes) : Bytes := UInt8.ofNat str.length :: str

/-- `Buffer::getShortString`, with the rest of the buffer; `none` if the buffer is too short. -/
def getShortString : Bytes → Option (Bytes × Bytes)
  | [] => none
  | n :: rest => if n.toNat ≤ rest.length then some (rest.take n.toNat, rest.drop n.toNat) else none

/-- The encoding of field tables by `Buffer::put` and its inverse `Buffer::get`. -/
structure FieldTables (A : Type) where
  put : A → Bytes
  get : Bytes → Option (A × Bytes)
  get_put : ∀ a rest, get (put a ++ rest) = some (a, rest)

/-- Field tables that are always empty. -/
def noArgs : FieldTables Unit := ⟨fun _ => [], fun rest => some ((), rest), fun _ _ => rfl⟩

/-- What the value of a binding says. -/
structure Binding (A : Type) where
  queueId : UInt64
  queueName : Bytes
  routingKey : Bytes
  args : A
  deriving DecidableEq

variable {A : Type} (T : FieldTables A)

/-- `BindingDbt` -/
def bindingDbt (b : Binding A) : Bytes :=
  putLongLong b.queueId ++ (putShortString b.queueName ++ (putShortString b.routingKey ++ T.put b.args))

/-- The id of the queue in a value; `none` if there are fewer than eight bytes. -/
def readQueueId (value : Bytes) : Option UInt64 := if value.length < 8 then none else some (getLongLong value)

/-- The routing key in a value, with what follows it. -/
def readRoutingKey (value : Bytes) : Option (Bytes × Bytes × Bytes) :=
  (getShortString (value.drop 8)).bind fun name => (getShortString name.2).map fun key => (name.1, key)

/-- The whole of a value, as `recoverBindings` reads it. -/
def readBinding (value : Bytes) : Option (Binding A) :=
  (readQueueId value).bind fun queueId =>
    (readRoutingKey value).bind fun r => (T.get r.2.2).map fun args => ⟨queueId, r.1, r.2.1, args.1⟩

/-- A name and a routing key that fit into short strings. -/
def Binding.Short (b : Binding A) : Prop := b.queueName.length ≤ 255 ∧ b.routingKey.length ≤ 255

private theorem getShortString_putShortString {str : Bytes} (h : str.length ≤ 255) (rest : Bytes) :
    getShortString (putShortString str ++ rest) = some (str, rest) := by
  have hn : (UInt8.ofNat str.length).toNat = str.length := by
    rw [UInt8.toNat_ofNat']
    exact Nat.mod_eq_of_lt (by omega)
  unfold putShortString getShortString
  simp [hn]

private theorem length_putLongLong (x : UInt64) : (putLongLong x).length = 8 := by
  simp [putLongLong, u64Bytes]

theorem readQueueId_bindingDbt (b : Binding A) : readQueueId (bindingDbt T b) = some b.queueId := by
  have htake : (bindingDbt T b).take 8 = putLongLong b.queueId := List.take_left' (length_putLongLong _)
  have hlen : ¬ (bindingDbt T b).length < 8 := by
    unfold bindingDbt
    rw [List.length_append, length_putLongLong]
    omega
  unfold readQueueId getLongLong
  rw [if_neg hlen, htake, putLongLong, List.reverse_reverse, u64Bytes, ofBytes_toBytes]
  rw [Nat.mod_eq_of_lt (by have := b.queueId.toNat_lt; omega), UInt64.ofNat_toNat]

theorem readRoutingKey_bindingDbt {b : Binding A} (h : b.Short) :
    readRoutingKey (bindingDbt T b) = some (b.queueName, b.routingKey, T.put b.args) := by
  have hdrop : (bindingDbt T b).drop 8 = _ := List.drop_left' (length_putLongLong _)
  unfold readRoutingKey
  rw [hdrop, getShortString_putShortString h.1, Option.bind_some, getShortString_putShortString h.2]
  rfl

theorem readBinding_bindingDbt {b : Binding A} (h : b.Short) : readBinding T (bindingDbt T b) = some b := by
  have hargs : T.get (T.put b.args) = some (b.args, []) := by
    have := T.get_put b.args []
    rwa [List.append_nil] at this
  unfold readBinding
  rw [readQueueId_bindingDbt, readRoutingKey_bindingDbt T h]
  simp only [Option.bind_some, hargs, Option.map_some]

/-- The encoding is injective on bindings with short strings. -/
theorem bindingDbt_inj {b b' : Binding A} (h : b.Short) (h' : b'.Short) (heq : bindingDbt T b = bindingDbt T b') :
    b = b' := by
  have hread := congrArg (readBinding T) heq
  rw [readBinding_bindingDbt T h, readBinding_bindingDbt T h'] at hread
  exact Option.some.inj hread

/-! ### The operations on `bindingDb` -/

/-- `bindingDb`: the ids of the exchanges with the encoded bindings. -/
abbrev BindingDb := MultiMap UInt64 Bytes

/-- The order of the records: by the bytes of the key, and for one key by the bytes of the value. -/
def cursorOrder (a b : UInt64 × Bytes) : Prop := u64Bytes a.1 < u64Bytes b.1 ∨ (a.1 = b.1 ∧ ¬ b.2 < a.2)

instance : DecidableRel cursorOrder := fun _ _ => inferInstanceAs (Decidable (_ ∨ _))

/-- `put` with `DB_NODUPDATA`, called by `bind`; `none` for "duplicate data". -/
def BindingDb.bind (db : BindingDb) (exchangeId : UInt64) (b : Binding A) : Option BindingDb :=
  MultiMap.put cursorOrder db exchangeId (bindingDbt T b)

/-- The body of the loop of `deleteBindingsForQueue`. -/
def visitForQueue (queueId : UInt64) (e : UInt64 × Bytes) : MultiMap.Visit Unit :=
  match readQueueId e.2 with
  | none => .stop
  | some id => if queueId = id then .delete else .keep ()

/-- `deleteBindingsForQueue`; `none` if it throws, and then the transaction is aborted. -/
def BindingDb.deleteBindingsForQueue (db : BindingDb) (queueId : UInt64) : Option BindingDb :=
  if (MultiMap.sweepFrom (visitForQueue queueId) db.entries).finished then
    some (db.afterSweep (visitForQueue queueId))
  else none

/-- The body of the loop of `deleteBinding`, which looks at the records of one exchange only. -/
def visitBinding (exchangeId queueId : UInt64) (bkey : Bytes) (e : UInt64 × Bytes) : MultiMap.Visit Unit :=
  if e.1 ≠ exchangeId then .keep ()
  else
    match readQueueId e.2 with
    | none => .stop
    | some id =>
      if queueId = id then
        match readRoutingKey e.2 with
        | none => .stop
        | some r => if bkey = r.2.1 then .delete else .keep ()
      else .keep ()

/-- `deleteBinding`, called by `unbind`; `none` if it throws, and then the transaction is aborted. -/
def BindingDb.deleteBinding (db : BindingDb) (exchangeId queueId : UInt64) (bkey : Bytes) : Option BindingDb :=
  if (MultiMap.sweepFrom (visitBinding exchangeId queueId bkey) db.entries).finished then
    some (db.afterSweep (visitBinding exchangeId queueId bkey))
  else none

/-- `bindingDb->del` with the id of an exchange. -/
def BindingDb.deleteBindingsForExchange (db : BindingDb) (exchangeId : UInt64) : BindingDb :=
  MultiMap.filter (fun e => e.1 ≠ exchangeId) db

/-- The body of the loop of `recoverBindings`: a binding with both ends is handed to the broker.  Another one is
stale.  The cursor has no transaction and `bindingDb` was opened in one, so `del` is refused and its exception ends
the loop. -/
def visitRecovered (exchangeMap queueMap : List (UInt64 × Bytes)) (e : UInt64 × Bytes) :
    MultiMap.Visit (UInt64 × Binding A) :=
  match readBinding T e.2 with
  | none => .stop
  | some b =>
    if (exchangeMap.any fun x => x.1 = e.1) ∧ (queueMap.any fun x => x.1 = b.queueId) then .keep (e.1, b) else .stop

/-- The outcome of `recoverBindings`: whether it came to the end, what it gave to the exchanges, and `bindingDb`. -/
structure RecoveredBindings (A : Type) where
  finished : Bool
  bound : List (UInt64 × Binding A)
  bindingDb : BindingDb

/-- `recoverBindings` -/
def recoverBindings (exchangeMap queueMap : List (UInt64 × Bytes)) (db : BindingDb) : RecoveredBindings A where
  finished := (MultiMap.sweepFrom (visitRecovered T exchangeMap queueMap) db.entries).finished
  bound := (MultiMap.sweepFrom (visitRecovered T exchangeMap queueMap) db.entries).outs
  bindingDb := db.afterSweep (visitRecovered T exchangeMap queueMap)

end BdbMsgStore
