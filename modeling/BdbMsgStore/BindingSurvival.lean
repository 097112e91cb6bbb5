import BdbMsgStore.Bindings
import BdbMsgStore.Lib.Runs
import Mathlib.Data.Set.Basic

/-!
# Bindings over restarts

Exchanges and queues are created and destroyed, bound and unbound, and the broker is restarted.  A crash may come
between the deletion of a record and the deletion of its bindings.  A recovery that is interrupted, or that ends
with an exception, changes no record, so a restart is a crash and the recovery that follows in the end.

The calls of the broker determine the tuples that should be bound (`boundAfter`).  The invariant of the runs says
that these are the records of `bindingDb` whose exchange and queue exist, and that the ends of every other record
are ids the sequences have left behind, so that no new object gets one of them.

`bindings_survive` says that then a recovery binds exactly the tuples that should be bound, and finds exactly these
in `bindingDb`, if and only if no binding is stale, as long as no queue has a name that begins with a NUL.  Such a
queue ends the loop of `recoverQueues`, and the bindings of the queues after it count as stale
(`bindings_lost_behind_nul`).
-/

namespace BdbMsgStore

variable {A : Type}

/-! ### The system -/

/-- The three databases, and the ids of the exchanges the broker has. -/
structure BindingStore where
  exchangeDb : RecordDb := {}
  queueDb : RecordDb := {}
  bindingDb : BindingDb := ∅
  exchanges : List UInt64 := []

/-- What the broker does and sees.  `live` says that both ends exist. -/
inductive BindingEvent (A : Type) where
  | exchangeDestroyed (exchangeId : UInt64)
  | queueDestroyed (queueId : UInt64)
  | bound (live : Bool) (exchangeId : UInt64) (b : Binding A)
  | unbound (exchangeId queueId : UInt64) (routingKey : Bytes)
  | restarted (exchanges : List UInt64)

/-- The place of a crash: between calls, or in a `destroy` after the record is deleted. -/
inductive Crash where
  | betweenCalls
  | inDestroyExchange (exchangeId : UInt64)
  | inDestroyQueue (queueId : UInt64)

/-- What was destroyed before a crash. -/
def Crash.events : Crash → List (BindingEvent A)
  | .betweenCalls => []
  | .inDestroyExchange exchangeId => [.exchangeDestroyed exchangeId]
  | .inDestroyQueue queueId => [.queueDestroyed queueId]

/-- A call of the broker, or a crash and the start of a new process. -/
inductive BindingAction (A : Type) where
  | createExchange (value : Bytes)
  | createQueue (name : Bytes)
  | destroyExchange (exchangeId : UInt64)
  | destroyQueue (queueId : UInt64)
  | bind (exchangeId : UInt64) (b : Binding A)
  | unbind (exchangeId queueId : UInt64) (routingKey : Bytes)
  | restart (crash : Crash) (recoverExchange : Bytes → Bool)

namespace BindingStore

/-- `create(const PersistableExchange&)` -/
def createExchange (s : BindingStore) (value : Bytes) : BindingStore :=
  match s.exchangeDb.create false value with
  | (.created id, d) => { s with exchangeDb := d, exchanges := id :: s.exchanges }
  | (_, d) => { s with exchangeDb := d }

/-- `create(PersistableQueue&)`, as far as the records go: a queue without a name is ignored. -/
def createQueue (s : BindingStore) (name : Bytes) : BindingStore :=
  if name = [] then s else { s with queueDb := (s.queueDb.create false name).2 }

/-- The first half of `destroy(const PersistableExchange&)`. -/
def deleteExchange (s : BindingStore) (exchangeId : UInt64) : BindingStore :=
  { s with exchangeDb := s.exchangeDb.destroy exchangeId, exchanges := s.exchanges.filter (· ≠ exchangeId) }

/-- The first half of `destroy(PersistableQueue&)`. -/
def deleteQueue (s : BindingStore) (queueId : UInt64) : BindingStore :=
  { s with queueDb := s.queueDb.destroy queueId }

/-- `destroy(const PersistableExchange&)` -/
def destroyExchange (s : BindingStore) (exchangeId : UInt64) : BindingStore :=
  { s.deleteExchange exchangeId with bindingDb := s.bindingDb.deleteBindingsForExchange exchangeId }

/-- `destroy(PersistableQueue&)` -/
def destroyQueue (s : BindingStore) (queueId : UInt64) : BindingStore :=
  { s.deleteQueue queueId with bindingDb := (s.bindingDb.deleteBindingsForQueue queueId).getD s.bindingDb }

/-- `bind` -/
def bind (T : FieldTables A) (s : BindingStore) (exchangeId : UInt64) (b : Binding A) : BindingStore :=
  { s with bindingDb := (s.bindingDb.bind T exchangeId b).getD s.bindingDb }

/-- `unbind` -/
def unbind (s : BindingStore) (exchangeId queueId : UInt64) (routingKey : Bytes) : BindingStore :=
  { s with bindingDb := (s.bindingDb.deleteBinding exchangeId queueId routingKey).getD s.bindingDb }

/-- The exchange and the queue of a binding exist. -/
def live (s : BindingStore) (exchangeId : UInt64) (b : Binding A) : Bool :=
  decide (exchangeId ∈ s.exchanges) && s.queueDb.records.contains b.queueId

/-- The databases after a crash. -/
def crash (s : BindingStore) : Crash → BindingStore
  | .betweenCalls => s
  | .inDestroyExchange exchangeId => s.deleteExchange exchangeId
  | .inDestroyQueue queueId => s.deleteQueue queueId

/-- The exchanges of a recovery. -/
def recoveredExchanges (s : BindingStore) (recoverExchange : Bytes → Bool) : List (UInt64 × Bytes) :=
  (recoverExchanges recoverExchange (cursor s.exchangeDb.records)).1

/-- The queues of a recovery. -/
def recoveredQueues (s : BindingStore) : RecoveredQueues := recoverQueues (cursor s.queueDb.records)

/-- The `recoverBindings` of a restart. -/
def recovered (T : FieldTables A) (s : BindingStore) (recoverExchange : Bytes → Bool) : RecoveredBindings A :=
  recoverBindings T (s.recoveredExchanges recoverExchange) s.recoveredQueues.queueMap s.bindingDb

/-- The store after `recoverExchanges`, `recoverQueues` and `recoverBindings`. -/
def recover (T : FieldTables A) (s : BindingStore) (recoverExchange : Bytes → Bool) : BindingStore where
  exchangeDb := s.exchangeDb.reset (recoverExchanges recoverExchange (cursor s.exchangeDb.records)).2
  queueDb := s.queueDb.reset s.recoveredQueues.maxQueueId
  bindingDb := (s.recovered T recoverExchange).bindingDb
  exchanges := (s.recoveredExchanges recoverExchange).map Prod.fst

/-- A step of the system.  A broker whose recovery ends with an exception does not start. -/
def step (T : FieldTables A) (s : BindingStore) : BindingAction A → Option (BindingStore × List (BindingEvent A))
  | .createExchange value => some (s.createExchange value, [])
  | .createQueue name => some (s.createQueue name, [])
  | .destroyExchange exchangeId => some (s.destroyExchange exchangeId, [.exchangeDestroyed exchangeId])
  | .destroyQueue queueId => some (s.destroyQueue queueId, [.queueDestroyed queueId])
  | .bind exchangeId b => some (s.bind T exchangeId b, [.bound (s.live exchangeId b) exchangeId b])
  | .unbind exchangeId queueId routingKey =>
    some (s.unbind exchangeId queueId routingKey, [.unbound exchangeId queueId routingKey])
  | .restart c recoverExchange =>
    if ((s.crash c).recovered T recoverExchange).finished then
      some ((s.crash c).recover T recoverExchange,
        c.events ++ [.restarted (((s.crash c).recoveredExchanges recoverExchange).map Prod.fst)])
    else none

end BindingStore

/-! ### What should be bound -/

/-- The tuples that should be bound after an event. -/
def BindingEvent.apply (bound : Set (UInt64 × Binding A)) : BindingEvent A → Set (UInt64 × Binding A)
  | .exchangeDestroyed exchangeId => {t ∈ bound | t.1 ≠ exchangeId}
  | .queueDestroyed queueId => {t ∈ bound | t.2.queueId ≠ queueId}
  | .bound true exchangeId b => insert (exchangeId, b) bound
  | .bound false _ _ => bound
  | .unbound exchangeId queueId routingKey =>
    {t ∈ bound | ¬ (t.1 = exchangeId ∧ t.2.queueId = queueId ∧ t.2.routingKey = routingKey)}
  | .restarted exchanges => {t ∈ bound | t.1 ∈ exchanges}

/-- The tuples that were bound while both ends existed, and have been neither unbound nor lost an end since. -/
def boundAfter (h : List (BindingEvent A)) : Set (UInt64 × Binding A) := h.foldl BindingEvent.apply ∅

/-- No binding is stale: each has its exchange, which the broker rebuilds, and its queue. -/
def BindingStore.NoStale (T : FieldTables A) (s : BindingStore) (recoverExchange : Bytes → Bool) : Prop :=
  ∀ (exchangeId : UInt64) (b : Binding A), b.Short → (exchangeId, bindingDbt T b) ∈ s.bindingDb.entries →
    exchangeId ∈ (s.recoveredExchanges recoverExchange).map Prod.fst ∧ s.queueDb.records.contains b.queueId = true

/-- A recovery comes to its end, binds every tuple of a set once and nothing else, and leaves their records in
`bindingDb` and no others. -/
structure RecoversExactly (T : FieldTables A) (r : RecoveredBindings A)
    (bound : Set (UInt64 × Binding A)) : Prop where
  finished : r.finished = true
  once : r.bound.Nodup
  rebound : ∀ t, t ∈ r.bound ↔ t ∈ bound
  records : ∀ exchangeId value,
    (exchangeId, value) ∈ r.bindingDb.entries ↔ ∃ b, (exchangeId, b) ∈ bound ∧ value = bindingDbt T b

/-- The sequence has left the id behind; after the last id it is at `0`. -/
def IdSequence.Below (seq : IdSequence) (id : UInt64) : Prop := seq.id = 0 ∨ id < seq.id

instance (seq : IdSequence) (id : UInt64) : Decidable (seq.Below id) := inferInstanceAs (Decidable (_ ∨ _))

/-- The calls the store can expect: an object gets an id only as long as the sequence has not gone around, an
exchange is one the broker has or one without a record, ids come from the store, and names and keys are short. -/
def Expected (s : BindingStore) : BindingAction A → Prop
  | .createExchange _ => s.exchangeDb.idSequence.id ≠ 0
  | .createQueue _ => s.queueDb.idSequence.id ≠ 0
  | .bind exchangeId b =>
    b.Short ∧ s.queueDb.idSequence.Below b.queueId ∧
      (exchangeId ∈ s.exchanges ∨
        s.exchangeDb.records.find? exchangeId = none ∧ s.exchangeDb.idSequence.Below exchangeId)
  | _ => True

/-- A queue is created with a name that does not begin with a NUL. -/
def Named : BindingAction A → Prop
  | .createQueue name => name ≠ [] → cStr name ≠ []
  | _ => True

instance (s : BindingStore) : DecidablePred (Expected (A := A) s) := fun a =>
  match a with
  | .createExchange _ => inferInstanceAs (Decidable (_ ≠ _))
  | .createQueue _ => inferInstanceAs (Decidable (_ ≠ _))
  | .bind _ _ => inferInstanceAs (Decidable ((_ ≤ _ ∧ _ ≤ _) ∧ _ ∧ (_ ∨ _ = _ ∧ _)))
  | .destroyExchange _ => isTrue trivial
  | .destroyQueue _ => isTrue trivial
  | .unbind _ _ _ => isTrue trivial
  | .restart _ _ => isTrue trivial

instance : DecidablePred (Named (A := A)) := fun a =>
  match a with
  | .createQueue _ => inferInstanceAs (Decidable (_ ≠ _ → _ ≠ _))
  | .createExchange _ => isTrue trivial
  | .destroyExchange _ => isTrue trivial
  | .destroyQueue _ => isTrue trivial
  | .bind _ _ => isTrue trivial
  | .unbind _ _ _ => isTrue trivial
  | .restart _ _ => isTrue trivial

/-! ### Operations on encoded bindings -/

/-- Every record is the encoding of a binding with short strings. -/
def Encoded (T : FieldTables A) (db : BindingDb) : Prop :=
  ∀ exchangeId value, (exchangeId, value) ∈ db.entries → ∃ b : Binding A, b.Short ∧ value = bindingDbt T b

theorem deleteBindingsForQueue_eq {T : FieldTables A} {db : BindingDb} (henc : Encoded T db) (queueId : UInt64) :
    db.deleteBindingsForQueue queueId = some (db.filter fun e => decide (readQueueId e.2 ≠ some queueId)) := by
  have hvisit : ∀ e ∈ db.entries, visitForQueue queueId e ≠ .stop ∧
      ((visitForQueue queueId e).out?.isSome = decide (readQueueId e.2 ≠ some queueId)) := by
    intro e he
    obtain ⟨b, -, hb⟩ := henc e.1 e.2 he
    unfold visitForQueue
    rw [hb, readQueueId_bindingDbt]
    by_cases h : queueId = b.queueId
    · simp [h, MultiMap.Visit.out?]
    · simp [h, MultiMap.Visit.out?, Ne.symm h]
  obtain ⟨hfin, -, hdb⟩ := MultiMap.sweep_eq fun e he => (hvisit e he).1
  unfold BindingDb.deleteBindingsForQueue
  rw [hfin, if_pos rfl, hdb]
  congr 1
  exact MultiMap.filter_congr fun e he => (hvisit e he).2

/-- `deleteBinding` deletes the records of the exchange for the queue and the routing key. -/
theorem mem_deleteBinding {T : FieldTables A} {db : BindingDb} (henc : Encoded T db) (exchangeId queueId : UInt64)
    (bkey : Bytes) {e : UInt64} {b : Binding A} (hb : b.Short) :
    (e, bindingDbt T b) ∈ ((db.deleteBinding exchangeId queueId bkey).getD db).entries ↔
      (e, bindingDbt T b) ∈ db.entries ∧ ¬ (e = exchangeId ∧ b.queueId = queueId ∧ b.routingKey = bkey) := by
  have hvisit : ∀ (e : UInt64) (b : Binding A), b.Short →
      visitBinding exchangeId queueId bkey (e, bindingDbt T b) =
        if e = exchangeId ∧ b.queueId = queueId ∧ b.routingKey = bkey then .delete else .keep () := by
    intro e b hb
    unfold visitBinding
    simp only [readQueueId_bindingDbt, readRoutingKey_bindingDbt T hb]
    by_cases h1 : e = exchangeId
    · by_cases h2 : queueId = b.queueId
      · by_cases h3 : bkey = b.routingKey
        · simp [h1, h2, h3]
        · simp [h1, h2, h3, Ne.symm h3]
      · simp [h1, h2, Ne.symm h2]
    · simp [h1]
  have hstop : ∀ e ∈ db.entries, visitBinding exchangeId queueId bkey e ≠ .stop := by
    intro e he
    obtain ⟨b, hshort, hb⟩ := henc e.1 e.2 he
    rw [show e = (e.1, bindingDbt T b) from Prod.ext rfl hb, hvisit _ _ hshort]
    split <;> simp
  obtain ⟨hfin, -, hdb⟩ := MultiMap.sweep_eq hstop
  unfold BindingDb.deleteBinding
  rw [hfin, if_pos rfl, hdb, Option.getD_some, MultiMap.mem_filter, hvisit e b hb]
  split
  · rename_i h
    simp [h, MultiMap.Visit.out?]
  · rename_i h
    simp [h, MultiMap.Visit.out?]

theorem deleteBinding_subset {db : BindingDb} {exchangeId queueId : UInt64} {bkey : Bytes} {e : UInt64 × Bytes}
    (h : e ∈ ((db.deleteBinding exchangeId queueId bkey).getD db).entries) : e ∈ db.entries := by
  unfold BindingDb.deleteBinding at h
  split at h
  · exact MultiMap.mem_of_mem_afterSweep h
  · exact h

/-! ### What a recovery does with encoded bindings -/

section Recovery

variable {T : FieldTables A} {exchangeMap queueMap : List (UInt64 × Bytes)}

/-- Both ends of a binding were recovered. -/
def HasEnds (exchangeMap queueMap : List (UInt64 × Bytes)) (e : UInt64) (b : Binding A) : Prop :=
  e ∈ exchangeMap.map Prod.fst ∧ b.queueId ∈ queueMap.map Prod.fst

instance (exchangeMap queueMap : List (UInt64 × Bytes)) (e : UInt64) (b : Binding A) :
    Decidable (HasEnds exchangeMap queueMap e b) := inferInstanceAs (Decidable (_ ∧ _))

private theorem any_id {l : List (UInt64 × Bytes)} {id : UInt64} :
    (l.any fun x => decide (x.1 = id)) = true ↔ id ∈ l.map Prod.fst := by
  rw [List.any_eq_true, List.mem_map]
  simp only [decide_eq_true_eq]

theorem visitRecovered_eq (T : FieldTables A) (exchangeMap queueMap : List (UInt64 × Bytes)) (e : UInt64)
    {b : Binding A} (hb : b.Short) : visitRecovered T exchangeMap queueMap (e, bindingDbt T b) =
      if HasEnds exchangeMap queueMap e b then .keep (e, b) else .stop := by
  unfold visitRecovered
  simp only [readBinding_bindingDbt T hb, any_id]
  rfl

/-- On encoded bindings `recoverBindings` comes to its end exactly if all of them have both ends. -/
theorem finished_recoverBindings {db : BindingDb} (henc : Encoded T db) :
    (recoverBindings T exchangeMap queueMap db).finished = true ↔
      ∀ (e : UInt64) (b : Binding A), b.Short → (e, bindingDbt T b) ∈ db.entries →
      HasEnds exchangeMap queueMap e b := by
  have hends : ∀ (e : UInt64) (b : Binding A), b.Short →
      (visitRecovered T exchangeMap queueMap (e, bindingDbt T b) ≠ .stop ↔ HasEnds exchangeMap queueMap e b) := by
    intro e b hb
    rw [visitRecovered_eq T _ _ e hb]
    split <;> simp [*]
  unfold recoverBindings
  dsimp only
  rw [MultiMap.finished_sweepFrom]
  constructor
  · intro h e b hb he
    exact (hends e b hb).1 (h _ he)
  · rintro h ⟨e, value⟩ he
    obtain ⟨b, hb, rfl⟩ := henc e value he
    exact (hends e b hb).2 (h e b hb he)

/-- Then it finds exactly these, and leaves `bindingDb` as it is. -/
theorem recoverBindings_exact {db : BindingDb} (henc : Encoded T db)
    (hfinished : (recoverBindings T exchangeMap queueMap db).finished = true) :
    RecoversExactly T (recoverBindings T exchangeMap queueMap db)
      {t | t.2.Short ∧ (t.1, bindingDbt T t.2) ∈ db.entries} := by
  -- a record gives an output, and the output says what the record is
  have hkeep : ∀ e ∈ db.entries, ∃ b : Binding A, b.Short ∧ e = (e.1, bindingDbt T b) ∧
      visitRecovered T exchangeMap queueMap e = .keep (e.1, b) := by
    rintro ⟨e, value⟩ he
    obtain ⟨b, hb, rfl⟩ := henc e value he
    refine ⟨b, hb, rfl, ?_⟩
    rw [visitRecovered_eq T _ _ e hb, if_pos ((finished_recoverBindings henc).1 hfinished e b hb he)]
  have hsome : ∀ e ∈ db.entries, ∀ t, (visitRecovered T exchangeMap queueMap e).out? = some t ↔
      e = (t.1, bindingDbt T t.2) ∧ t.2.Short := by
    intro e he t
    obtain ⟨b, hb, heq, hv⟩ := hkeep e he
    rw [hv]
    constructor
    · intro h
      cases h
      exact ⟨heq, hb⟩
    · rintro ⟨h, hb'⟩
      have hfst : e.1 = t.1 := congrArg Prod.fst h
      rw [hfst, bindingDbt_inj T hb hb' (congrArg Prod.snd (heq.symm.trans h))]
      rfl
  have hstop : ∀ e ∈ db.entries, visitRecovered T exchangeMap queueMap e ≠ .stop :=
    MultiMap.finished_sweepFrom.1 hfinished
  obtain ⟨-, houts, hdb⟩ := MultiMap.sweep_eq hstop
  refine ⟨hfinished, ?_, ?_, ?_⟩
  · unfold recoverBindings
    dsimp only
    rw [houts, List.nodup_iff_pairwise_ne, List.pairwise_filterMap]
    refine (List.nodup_iff_pairwise_ne.1 db.nodup).imp_of_mem ?_
    intro e e' he he' hne t ht t' ht' htt'
    subst htt'
    exact hne (((hsome e he t).1 ht).1.trans ((hsome e' he' t).1 ht').1.symm)
  · intro t
    unfold recoverBindings
    dsimp only
    rw [houts, List.mem_filterMap]
    constructor
    · rintro ⟨e, he, ht⟩
      obtain ⟨heq, hb⟩ := (hsome e he t).1 ht
      exact ⟨hb, heq ▸ he⟩
    · rintro ⟨hb, he⟩
      exact ⟨_, he, (hsome _ he t).2 ⟨rfl, hb⟩⟩
  · intro e value
    unfold recoverBindings
    dsimp only
    rw [hdb, MultiMap.mem_filter]
    constructor
    · rintro ⟨he, -⟩
      obtain ⟨b, hb, rfl⟩ := henc e value he
      exact ⟨b, ⟨hb, he⟩, rfl⟩
    · rintro ⟨b, ⟨hb, he⟩, rfl⟩
      refine ⟨he, ?_⟩
      rw [(hsome _ he (e, b)).2 ⟨rfl, hb⟩]
      rfl

end Recovery

/-! ### Ids -/

namespace IdSequence

theorem not_below_self {seq : IdSequence} (h : seq.id ≠ 0) : ¬ seq.Below seq.id := by
  intro hb
  rcases hb with hb | hb
  · exact h hb
  · exact lt_irrefl _ hb

private theorem le_lt_succ {x y : UInt64} (h : x ≤ y) : y + 1 = 0 ∨ x < y + 1 := by
  have hx := UInt64.le_iff_toNat_le.1 h
  have hy := y.toNat_lt
  by_cases hmax : y.toNat + 1 = 2 ^ 64
  · left
    apply UInt64.toNat_inj.1
    rw [UInt64.toNat_add]
    show (y.toNat + 1) % 2 ^ 64 = 0
    omega
  · right
    apply UInt64.lt_iff_toNat_lt.2
    rw [UInt64.toNat_add]
    show x.toNat < (y.toNat + 1) % 2 ^ 64
    omega

theorem below_of_le {m id : UInt64} (h : id ≤ m) : (IdSequence.reset (m + 1)).Below id := le_lt_succ h

theorem Below.succ {seq : IdSequence} (h : seq.id ≠ 0) {id : UInt64} (hb : seq.Below id) :
    (IdSequence.mk (seq.id + 1)).Below id := by
  rcases hb with hb | hb
  · exact absurd hb h
  · exact le_lt_succ (le_of_lt hb)

end IdSequence

/-- An id that the sequence has not left behind is free. -/
theorem RecordDb.create_fresh {d : RecordDb} (hid : d.idSequence.id ≠ 0)
    (hbelow : ∀ id, d.records.contains id = true → d.idSequence.Below id) (value : Bytes) :
    d.create false value = (.created d.idSequence.id,
      { records := d.records.insert d.idSequence.id value, idSequence := ⟨d.idSequence.id + 1⟩ }) := by
  have hfree : ¬ d.records.contains d.idSequence.id = true := fun h => IdSequence.not_below_self hid (hbelow _ h)
  unfold RecordDb.create IdSequence.next
  simp [hid, hfree]

private theorem contains_insert {m : OrdMap UInt64 Bytes} {k k' : UInt64} {v : Bytes} :
    (m.insert k v).contains k' = true ↔ k' = k ∨ m.contains k' = true := by
  unfold OrdMap.contains
  rw [OrdMap.find?_insert]
  split
  · rename_i h
    simp [h]
  · rename_i h
    simp [h]

private theorem contains_erase {m : OrdMap UInt64 Bytes} {k k' : UInt64} :
    (m.erase k).contains k' = true ↔ k' ≠ k ∧ m.contains k' = true := by
  unfold OrdMap.contains
  rw [OrdMap.find?_erase]
  split
  · rename_i h
    simp [h]
  · rename_i h
    simp [h]

/-! ### The invariant -/

/-- The tuples that should be bound are the bindings with both ends; a binding without one of its ends is out of
reach of the sequences. -/
structure BindingInv (T : FieldTables A) (h : List (BindingEvent A)) (s : BindingStore) : Prop where
  bound : ∀ e b, (e, b) ∈ boundAfter h ↔
    b.Short ∧ (e, bindingDbt T b) ∈ s.bindingDb.entries ∧ e ∈ s.exchanges ∧
      s.queueDb.records.contains b.queueId = true
  encoded : Encoded T s.bindingDb
  queueEnd : ∀ e b, b.Short → (e, bindingDbt T b) ∈ s.bindingDb.entries → s.queueDb.idSequence.Below b.queueId
  exchangeEnd : ∀ e value, (e, value) ∈ s.bindingDb.entries →
    e ∈ s.exchanges ∨ s.exchangeDb.records.find? e = none ∧ s.exchangeDb.idSequence.Below e
  exchanges : ∀ e ∈ s.exchanges, s.exchangeDb.records.contains e = true
  exchangeIds : ∀ e, s.exchangeDb.records.contains e = true → s.exchangeDb.idSequence.Below e
  queueIds : ∀ q, s.queueDb.records.contains q = true → s.queueDb.idSequence.Below q
  named : ∀ q name, s.queueDb.records.find? q = some name → hasName (q, name) = true

theorem boundAfter_append (h h' : List (BindingEvent A)) :
    boundAfter (h ++ h') = h'.foldl BindingEvent.apply (boundAfter h) := List.foldl_append ..

namespace BindingInv

variable {T : FieldTables A} {h : List (BindingEvent A)} {s : BindingStore}

theorem init : BindingInv T [] {} where
  bound := by simp [boundAfter]
  encoded := by intro e value he; simp at he
  queueEnd := by intro e b _ he; simp at he
  exchangeEnd := by intro e value he; simp at he
  exchanges := by simp
  exchangeIds := by simp [OrdMap.contains]
  queueIds := by simp [OrdMap.contains]
  named := by simp

/-- Deleting bindings without an end changes nothing. -/
theorem shrink (hI : BindingInv T h s) {db : BindingDb} (hsub : ∀ e ∈ db.entries, e ∈ s.bindingDb.entries)
    (hkeep : ∀ e b, b.Short → e ∈ s.exchanges → s.queueDb.records.contains b.queueId = true →
      (e, bindingDbt T b) ∈ s.bindingDb.entries → (e, bindingDbt T b) ∈ db.entries) :
    BindingInv T h { s with bindingDb := db } :=
  { hI with
    bound := by
      intro e b
      rw [hI.bound]
      constructor
      · intro ⟨hshort, he, hex, hq⟩
        exact ⟨hshort, hkeep e b hshort hex hq he, hex, hq⟩
      · intro ⟨hshort, he, hex, hq⟩
        exact ⟨hshort, hsub _ he, hex, hq⟩
    encoded := fun e value he => hI.encoded e value (hsub _ he)
    queueEnd := fun e b hshort he => hI.queueEnd e b hshort (hsub _ he)
    exchangeEnd := fun e value he => hI.exchangeEnd e value (hsub _ he) }

theorem createExchange (hI : BindingInv T h s) (hid : s.exchangeDb.idSequence.id ≠ 0) (value : Bytes) :
    BindingInv T h (s.createExchange value) := by
  -- the new id is no end of a binding
  have hnew : ∀ e v, (e, v) ∈ s.bindingDb.entries → e ≠ s.exchangeDb.idSequence.id := by
    intro e v he heq
    subst heq
    apply IdSequence.not_below_self hid
    rcases hI.exchangeEnd _ v he with hex | ⟨-, hbelow⟩
    · exact hI.exchangeIds _ (hI.exchanges _ hex)
    · exact hbelow
  unfold BindingStore.createExchange
  rw [RecordDb.create_fresh hid hI.exchangeIds]
  refine { hI with bound := ?_, exchangeEnd := ?_, exchanges := ?_, exchangeIds := ?_ }
  · intro e b
    rw [hI.bound, List.mem_cons]
    constructor
    · intro ⟨hshort, he, hex, hq⟩
      exact ⟨hshort, he, Or.inr hex, hq⟩
    · intro ⟨hshort, he, hex, hq⟩
      exact ⟨hshort, he, hex.resolve_left (hnew e _ he), hq⟩
  · intro e v he
    rcases hI.exchangeEnd e v he with hex | ⟨hnone, hbelow⟩
    · exact Or.inl (List.mem_cons_of_mem _ hex)
    · right
      dsimp only
      rw [OrdMap.find?_insert, if_neg (hnew e v he)]
      exact ⟨hnone, hbelow.succ hid⟩
  · intro e hex
    rw [contains_insert]
    rcases List.mem_cons.1 hex with hex | hex
    · exact Or.inl hex
    · exact Or.inr (hI.exchanges e hex)
  · intro e he
    rcases contains_insert.1 he with rfl | he
    · exact IdSequence.below_of_le le_rfl
    · exact (hI.exchangeIds e he).succ hid

theorem createQueue (hI : BindingInv T h s) (hid : s.queueDb.idSequence.id ≠ 0) {name : Bytes}
    (hname : name ≠ [] → cStr name ≠ []) : BindingInv T h (s.createQueue name) := by
  unfold BindingStore.createQueue
  by_cases hempty : name = []
  · rw [if_pos hempty]
    exact hI
  rw [if_neg hempty, RecordDb.create_fresh hid hI.queueIds]
  refine { hI with bound := ?_, queueEnd := ?_, queueIds := ?_, named := ?_ }
  · intro e b
    rw [hI.bound, contains_insert]
    constructor
    · intro ⟨hshort, he, hex, hq⟩
      exact ⟨hshort, he, hex, Or.inr hq⟩
    · intro ⟨hshort, he, hex, hq⟩
      -- the new id is no end of a binding
      refine ⟨hshort, he, hex, hq.resolve_left ?_⟩
      intro heq
      exact IdSequence.not_below_self hid (heq ▸ hI.queueEnd e b hshort he)
  · intro e b hshort he
    exact (hI.queueEnd e b hshort he).succ hid
  · intro q hq
    rcases contains_insert.1 hq with rfl | hq
    · exact IdSequence.below_of_le le_rfl
    · exact (hI.queueIds q hq).succ hid
  · intro q name' hq
    dsimp only at hq
    rw [OrdMap.find?_insert] at hq
    split at hq
    · -- the id was free, so the record is the new one
      have hnone : s.queueDb.records.find? s.queueDb.idSequence.id = none := by
        rw [← Option.not_isSome_iff_eq_none]
        exact fun hs => IdSequence.not_below_self hid (hI.queueIds _ hs)
      rw [hnone, Option.getD_none, Option.some.injEq] at hq
      subst hq
      simpa [hasName] using hname hempty
    · exact hI.named q name' hq

theorem deleteExchange (hI : BindingInv T h s) (exchangeId : UInt64) :
    BindingInv T (h ++ [.exchangeDestroyed exchangeId]) (s.deleteExchange exchangeId) := by
  have hmem : ∀ e, e ∈ (s.deleteExchange exchangeId).exchanges ↔ e ∈ s.exchanges ∧ e ≠ exchangeId := by
    simp [BindingStore.deleteExchange]
  refine { hI with bound := ?_, exchangeEnd := ?_, exchanges := ?_, exchangeIds := ?_ }
  · intro e b
    rw [boundAfter_append, hmem]
    show (e, b) ∈ boundAfter h ∧ e ≠ exchangeId ↔ _
    rw [hI.bound]
    constructor
    · intro ⟨⟨hshort, he, hex, hq⟩, hne⟩
      exact ⟨hshort, he, ⟨hex, hne⟩, hq⟩
    · intro ⟨hshort, he, ⟨hex, hne⟩, hq⟩
      exact ⟨⟨hshort, he, hex, hq⟩, hne⟩
  · intro e v he
    by_cases heq : e = exchangeId
    · right
      refine ⟨by simp [BindingStore.deleteExchange, RecordDb.destroy, OrdMap.find?_erase, heq], ?_⟩
      rcases hI.exchangeEnd e v he with hex | ⟨-, hbelow⟩
      · exact hI.exchangeIds _ (hI.exchanges _ hex)
      · exact hbelow
    · rcases hI.exchangeEnd e v he with hex | ⟨hnone, hbelow⟩
      · exact Or.inl ((hmem e).2 ⟨hex, heq⟩)
      · right
        refine ⟨?_, hbelow⟩
        show (s.exchangeDb.records.erase exchangeId).find? e = none
        rw [OrdMap.find?_erase, if_neg heq, hnone]
  · intro e hex
    obtain ⟨hex, hne⟩ := (hmem e).1 hex
    exact contains_erase.2 ⟨hne, hI.exchanges e hex⟩
  · intro e he
    exact hI.exchangeIds e (contains_erase.1 he).2

theorem deleteQueue (hI : BindingInv T h s) (queueId : UInt64) :
    BindingInv T (h ++ [.queueDestroyed queueId]) (s.deleteQueue queueId) := by
  refine { hI with bound := ?_, queueIds := ?_, named := ?_ }
  · intro e b
    rw [boundAfter_append]
    show (e, b) ∈ boundAfter h ∧ b.queueId ≠ queueId ↔ _ ∧ _ ∧ _ ∧ (s.queueDb.records.erase queueId).contains _ = true
    rw [hI.bound, contains_erase]
    constructor
    · intro ⟨⟨hshort, he, hex, hq⟩, hne⟩
      exact ⟨hshort, he, hex, hne, hq⟩
    · intro ⟨hshort, he, hex, hne, hq⟩
      exact ⟨⟨hshort, he, hex, hq⟩, hne⟩
  · intro q hq
    exact hI.queueIds q (contains_erase.1 hq).2
  · intro q name hq
    have hq : (s.queueDb.records.erase queueId).find? q = some name := hq
    rw [OrdMap.find?_erase] at hq
    split at hq
    · cases hq
    · exact hI.named q name hq

theorem destroyExchange (hI : BindingInv T h s) (exchangeId : UInt64) :
    BindingInv T (h ++ [.exchangeDestroyed exchangeId]) (s.destroyExchange exchangeId) := by
  refine (hI.deleteExchange exchangeId).shrink (fun e he => (MultiMap.mem_filter.1 he).1) ?_
  intro e b _ hex _ he
  refine MultiMap.mem_filter.2 ⟨he, ?_⟩
  have hne : e ≠ exchangeId := by
    simp only [BindingStore.deleteExchange, List.mem_filter] at hex
    simpa using hex.2
  simpa using hne

theorem destroyQueue (hI : BindingInv T h s) (queueId : UInt64) :
    BindingInv T (h ++ [.queueDestroyed queueId]) (s.destroyQueue queueId) := by
  unfold BindingStore.destroyQueue
  rw [deleteBindingsForQueue_eq hI.encoded, Option.getD_some]
  refine (hI.deleteQueue queueId).shrink (fun e he => (MultiMap.mem_filter.1 he).1) ?_
  intro e b _ _ hq he
  refine MultiMap.mem_filter.2 ⟨he, ?_⟩
  have hne : b.queueId ≠ queueId := (contains_erase.1 hq).1
  simpa [readQueueId_bindingDbt] using hne

theorem bind (hI : BindingInv T h s) {exchangeId : UInt64} {b : Binding A} (hshort : b.Short)
    (hqueue : s.queueDb.idSequence.Below b.queueId)
    (hexchange : exchangeId ∈ s.exchanges ∨
      s.exchangeDb.records.find? exchangeId = none ∧ s.exchangeDb.idSequence.Below exchangeId) :
    BindingInv T (h ++ [.bound (s.live exchangeId b) exchangeId b]) (s.bind T exchangeId b) := by
  have hmem : ∀ e, e ∈ (s.bind T exchangeId b).bindingDb.entries ↔
      e = (exchangeId, bindingDbt T b) ∨ e ∈ s.bindingDb.entries := fun e => MultiMap.mem_put
  have hinj : ∀ b' : Binding A, b'.Short → bindingDbt T b' = bindingDbt T b → b' = b :=
    fun _ hb' => bindingDbt_inj T hb' hshort
  refine { hI with bound := ?_, encoded := ?_, queueEnd := ?_, exchangeEnd := ?_ }
  · intro e b'
    have hlive : (e, b') ∈ boundAfter (h ++ [.bound (s.live exchangeId b) exchangeId b]) ↔
        ((e, b') = (exchangeId, b) ∧ s.live exchangeId b = true) ∨ (e, b') ∈ boundAfter h := by
      rw [boundAfter_append]
      cases s.live exchangeId b with
      | false => simp [BindingEvent.apply]
      | true => simp [BindingEvent.apply]
    rw [hlive, hmem, hI.bound]
    show _ ↔ b'.Short ∧ _ ∧ e ∈ s.exchanges ∧ s.queueDb.records.contains b'.queueId = true
    simp only [BindingStore.live, Bool.and_eq_true, decide_eq_true_eq, Prod.mk.injEq]
    constructor
    · intro hcase
      rcases hcase with ⟨⟨rfl, rfl⟩, hex, hq⟩ | ⟨hb', he, hex, hq⟩
      · exact ⟨hshort, Or.inl ⟨rfl, rfl⟩, hex, hq⟩
      · exact ⟨hb', Or.inr he, hex, hq⟩
    · intro ⟨hb', he, hex, hq⟩
      rcases he with ⟨rfl, heq⟩ | he
      · obtain rfl := hinj b' hb' heq
        exact Or.inl ⟨⟨rfl, rfl⟩, hex, hq⟩
      · exact Or.inr ⟨hb', he, hex, hq⟩
  · intro e value he
    rcases (hmem _).1 he with heq | he
    · simp only [Prod.mk.injEq] at heq
      exact ⟨b, hshort, heq.2⟩
    · exact hI.encoded e value he
  · intro e b' hb' he
    rcases (hmem _).1 he with heq | he
    · simp only [Prod.mk.injEq] at heq
      rw [hinj b' hb' heq.2]
      exact hqueue
    · exact hI.queueEnd e b' hb' he
  · intro e value he
    rcases (hmem _).1 he with heq | he
    · simp only [Prod.mk.injEq] at heq
      rw [heq.1]
      exact hexchange
    · exact hI.exchangeEnd e value he

theorem unbind (hI : BindingInv T h s) (exchangeId queueId : UInt64) (routingKey : Bytes) :
    BindingInv T (h ++ [.unbound exchangeId queueId routingKey]) (s.unbind exchangeId queueId routingKey) where
  bound := by
    intro e b
    rw [boundAfter_append]
    show (e, b) ∈ boundAfter h ∧ ¬ (e = exchangeId ∧ b.queueId = queueId ∧ b.routingKey = routingKey) ↔
      b.Short ∧
        (e, bindingDbt T b) ∈ ((s.bindingDb.deleteBinding exchangeId queueId routingKey).getD s.bindingDb).entries ∧
        e ∈ s.exchanges ∧ s.queueDb.records.contains b.queueId = true
    rw [hI.bound]
    constructor
    · intro ⟨⟨hshort, he, hex, hq⟩, hne⟩
      exact ⟨hshort, (mem_deleteBinding hI.encoded _ _ _ hshort).2 ⟨he, hne⟩, hex, hq⟩
    · intro ⟨hshort, he, hex, hq⟩
      obtain ⟨he, hne⟩ := (mem_deleteBinding hI.encoded _ _ _ hshort).1 he
      exact ⟨⟨hshort, he, hex, hq⟩, hne⟩
  encoded := fun e value he => hI.encoded e value (deleteBinding_subset he)
  queueEnd := fun e b hshort he => hI.queueEnd e b hshort (deleteBinding_subset he)
  exchangeEnd := fun e value he => hI.exchangeEnd e value (deleteBinding_subset he)
  exchanges := hI.exchanges
  exchangeIds := hI.exchangeIds
  queueIds := hI.queueIds
  named := hI.named

/-! ### Restarts -/

theorem mem_recoveredExchanges {recoverExchange : Bytes → Bool} {e : UInt64}
    (he : e ∈ (s.recoveredExchanges recoverExchange).map Prod.fst) : s.exchangeDb.records.contains e = true := by
  obtain ⟨x, hx, rfl⟩ := List.mem_map.1 he
  have hx : (x.1, x.2) ∈ cursor s.exchangeDb.records := (List.mem_filter.1 hx).1
  rw [OrdMap.contains, mem_cursor.1 hx]
  rfl

/-- Every queue is recovered. -/
theorem recoveredQueues_eq (hI : BindingInv T h s) : s.recoveredQueues.queueMap = cursor s.queueDb.records ∧
    s.recoveredQueues.maxQueueId = maxId (cursor s.queueDb.records) :=
  recoverQueues_of_hasName fun e he => hI.named e.1 e.2 (mem_cursor.1 he)

theorem mem_recoveredQueues (hI : BindingInv T h s) {q : UInt64} :
    q ∈ s.recoveredQueues.queueMap.map Prod.fst ↔ s.queueDb.records.contains q = true := by
  rw [hI.recoveredQueues_eq.1, List.mem_map, OrdMap.contains, Option.isSome_iff_exists]
  constructor
  · rintro ⟨x, hx, hq⟩
    subst hq
    exact ⟨x.2, mem_cursor.1 hx⟩
  · rintro ⟨name, hname⟩
    exact ⟨(q, name), mem_cursor.2 hname, rfl⟩

/-- A recovery comes to its end exactly if no binding is stale. -/
theorem finished_recovered (hI : BindingInv T h s) (recoverExchange : Bytes → Bool) :
    (s.recovered T recoverExchange).finished = true ↔ s.NoStale T recoverExchange := by
  unfold BindingStore.recovered BindingStore.NoStale
  rw [finished_recoverBindings hI.encoded]
  unfold HasEnds
  simp only [hI.mem_recoveredQueues]

/-- Then the records are those of the tuples that should be bound. -/
theorem bound_eq (hI : BindingInv T h s) {recoverExchange : Bytes → Bool} (hstale : s.NoStale T recoverExchange) :
    {t : UInt64 × Binding A | t.2.Short ∧ (t.1, bindingDbt T t.2) ∈ s.bindingDb.entries} =
      boundAfter (h ++ [.restarted ((s.recoveredExchanges recoverExchange).map Prod.fst)]) := by
  ext ⟨e, b⟩
  rw [boundAfter_append]
  show b.Short ∧ _ ↔ (e, b) ∈ boundAfter h ∧ e ∈ (s.recoveredExchanges recoverExchange).map Prod.fst
  rw [hI.bound]
  constructor
  · rintro ⟨hshort, he⟩
    obtain ⟨hex, hq⟩ := hstale e b hshort he
    refine ⟨⟨hshort, he, ?_, hq⟩, hex⟩
    -- an exchange with a record is one the broker had
    rcases hI.exchangeEnd e _ he with hold | ⟨hnone, -⟩
    · exact hold
    · have hrec := mem_recoveredExchanges hex
      rw [OrdMap.contains, hnone] at hrec
      cases hrec
  · rintro ⟨⟨hshort, he, -, -⟩, -⟩
    exact ⟨hshort, he⟩

theorem recovered (hI : BindingInv T h s) {recoverExchange : Bytes → Bool} (hstale : s.NoStale T recoverExchange) :
    RecoversExactly T (s.recovered T recoverExchange)
      (boundAfter (h ++ [.restarted ((s.recoveredExchanges recoverExchange).map Prod.fst)])) := by
  rw [← hI.bound_eq hstale]
  exact recoverBindings_exact hI.encoded ((hI.finished_recovered recoverExchange).2 hstale)

theorem recover (hI : BindingInv T h s) {recoverExchange : Bytes → Bool} (hstale : s.NoStale T recoverExchange) :
    BindingInv T (h ++ [.restarted ((s.recoveredExchanges recoverExchange).map Prod.fst)])
      (s.recover T recoverExchange) := by
  have hrec := hI.recovered hstale
  have hboundEnds : ∀ e b,
      (e, b) ∈ boundAfter (h ++ [.restarted ((s.recoveredExchanges recoverExchange).map Prod.fst)]) →
      b.Short ∧ e ∈ (s.recoveredExchanges recoverExchange).map Prod.fst ∧
        s.queueDb.records.contains b.queueId = true := by
    intro e b hb
    rw [← hI.bound_eq hstale] at hb
    exact ⟨hb.1, hstale e b hb.1 hb.2⟩
  -- every id of a record is below the new start of its sequence
  have hexchangeIds : ∀ e, s.exchangeDb.records.contains e = true →
      (IdSequence.reset (maxId (cursor s.exchangeDb.records) + 1)).Below e := by
    intro e he
    obtain ⟨value, hvalue⟩ := Option.isSome_iff_exists.1 he
    exact IdSequence.below_of_le (le_maxId (mem_cursor.2 hvalue))
  have hqueueIds : ∀ q, s.queueDb.records.contains q = true →
      (IdSequence.reset (s.recoveredQueues.maxQueueId + 1)).Below q := by
    intro q hq
    obtain ⟨name, hname⟩ := Option.isSome_iff_exists.1 hq
    rw [hI.recoveredQueues_eq.2]
    exact IdSequence.below_of_le (le_maxId (mem_cursor.2 hname))
  -- a record that is left belongs to a tuple that should be bound
  have hleft : ∀ e (b : Binding A), b.Short →
      (e, bindingDbt T b) ∈ (s.recover T recoverExchange).bindingDb.entries →
      (e, b) ∈ boundAfter (h ++ [.restarted ((s.recoveredExchanges recoverExchange).map Prod.fst)]) := by
    intro e b hshort he
    obtain ⟨b', hb', heq⟩ := (hrec.records e _).1 he
    rw [bindingDbt_inj T hshort (hboundEnds e b' hb').1 heq]
    exact hb'
  refine ⟨?_, ?_, ?_, ?_, ?_, hexchangeIds, hqueueIds, hI.named⟩
  · intro e b
    constructor
    · intro hb
      obtain ⟨hshort, hex, hq⟩ := hboundEnds e b hb
      exact ⟨hshort, (hrec.records e _).2 ⟨b, hb, rfl⟩, hex, hq⟩
    · intro ⟨hshort, he, _, _⟩
      exact hleft e b hshort he
  · intro e value he
    obtain ⟨b, hb, hvalue⟩ := (hrec.records e value).1 he
    exact ⟨b, (hboundEnds e b hb).1, hvalue⟩
  · intro e b hshort he
    exact hqueueIds _ (hboundEnds e b (hleft e b hshort he)).2.2
  · intro e value he
    obtain ⟨b, hb, -⟩ := (hrec.records e value).1 he
    exact Or.inl (hboundEnds e b hb).2.1
  · intro e he
    exact mem_recoveredExchanges he

theorem crash (hI : BindingInv T h s) (c : Crash) : BindingInv T (h ++ c.events) (s.crash c) := by
  cases c with
  | betweenCalls => simpa [BindingStore.crash, Crash.events] using hI
  | inDestroyExchange exchangeId => exact hI.deleteExchange exchangeId
  | inDestroyQueue queueId => exact hI.deleteQueue queueId

theorem step (hI : BindingInv T h s) {a : BindingAction A} (hexp : Expected s a) (hnamed : Named a)
    {s' : BindingStore} {ev : List (BindingEvent A)} (hst : s.step T a = some (s', ev)) :
    BindingInv T (h ++ ev) s' := by
  cases a with
  | createExchange value =>
    cases hst
    simpa using hI.createExchange hexp value
  | createQueue name =>
    cases hst
    simpa using hI.createQueue hexp hnamed
  | destroyExchange exchangeId =>
    cases hst
    exact hI.destroyExchange exchangeId
  | destroyQueue queueId =>
    cases hst
    exact hI.destroyQueue queueId
  | bind exchangeId b =>
    cases hst
    exact hI.bind hexp.1 hexp.2.1 hexp.2.2
  | unbind exchangeId queueId routingKey =>
    cases hst
    exact hI.unbind exchangeId queueId routingKey
  | restart c recoverExchange =>
    simp only [BindingStore.step] at hst
    split at hst
    · rename_i hfinished
      cases hst
      rw [← List.append_assoc]
      exact (hI.crash c).recover (((hI.crash c).finished_recovered recoverExchange).1 hfinished)
    · cases hst

end BindingInv

/-! ### A recovery finds what should be bound -/

/-- The recovery of a restart. -/
def restartBindings (T : FieldTables A) (s : BindingStore) (c : Crash) (recoverExchange : Bytes → Bool) :
    RecoveredBindings A :=
  (s.crash c).recovered T recoverExchange

/-- The events of a restart. -/
def restartEvents (s : BindingStore) (c : Crash) (recoverExchange : Bytes → Bool) : List (BindingEvent A) :=
  c.events ++ [.restarted (((s.crash c).recoveredExchanges recoverExchange).map Prod.fst)]

/-- In every run in which no queue gets a name that begins with a NUL, whatever crash comes next, the recovery comes
to its end, binds exactly the tuples that should be bound, and leaves exactly these in `bindingDb`, if and only if
it finds no stale binding. -/
theorem bindings_survive (T : FieldTables A) {h : List (BindingEvent A)} {s : BindingStore}
    (hrun : Run (BindingStore.step T) (fun _ s a => Expected s a ∧ Named a) {} h s) (c : Crash)
    (recoverExchange : Bytes → Bool) :
    RecoversExactly T (restartBindings T s c recoverExchange) (boundAfter (h ++ restartEvents s c recoverExchange)) ↔
      (s.crash c).NoStale T recoverExchange := by
  have hI : BindingInv T h s := by
    refine hrun.invariant (I := BindingInv T) BindingInv.init ?_
    intro h s a s' ev hI hok hst
    exact hI.step hok.1 hok.2 hst
  unfold restartEvents restartBindings
  rw [← List.append_assoc]
  constructor
  · intro hexact
    exact ((hI.crash c).finished_recovered recoverExchange).1 hexact.finished
  · intro hstale
    exact (hI.crash c).recovered hstale

/-- Two queues are bound to an exchange. -/
def boundTwice : List (BindingAction Unit) :=
  [.createExchange [0x65], .createQueue [0x71], .createQueue [0x72], .bind 1 ⟨1, [0x71], [0x6b], ()⟩,
    .bind 1 ⟨2, [0x72], [0x6b], ()⟩]

/-- The first queue is destroyed.  After a crash between the calls the other binding is found; after a crash in
`destroy` the binding of the first queue is stale, and the recovery ends there. -/
theorem bindings_survive_destroy :
    let h := (Run.exec (BindingStore.step noArgs) [] {} (boundTwice ++ [.destroyQueue 1])).1
    let s := (Run.exec (BindingStore.step noArgs) [] {} (boundTwice ++ [.destroyQueue 1])).2
    let h' := (Run.exec (BindingStore.step noArgs) [] {} boundTwice).1
    let s' := (Run.exec (BindingStore.step noArgs) [] {} boundTwice).2
    (restartBindings noArgs s .betweenCalls fun _ => true).bound = [(1, ⟨2, [0x72], [0x6b], ()⟩)] ∧
      RecoversExactly noArgs (restartBindings noArgs s .betweenCalls fun _ => true)
        (boundAfter (h ++ restartEvents s .betweenCalls fun _ => true)) ∧
      ¬ RecoversExactly noArgs (restartBindings noArgs s' (.inDestroyQueue 1) fun _ => true)
        (boundAfter (h' ++ restartEvents s' (.inDestroyQueue 1) fun _ => true)) := by
  have hrun : Run (BindingStore.step noArgs) (fun _ s a => Expected s a ∧ Named a) {}
      (Run.exec (BindingStore.step noArgs) [] {} (boundTwice ++ [.destroyQueue 1])).1
      (Run.exec (BindingStore.step noArgs) [] {} (boundTwice ++ [.destroyQueue 1])).2 :=
    Run.exec_of_allowed Run.nil (by decide +kernel)
  have hrun' : Run (BindingStore.step noArgs) (fun _ s a => Expected s a ∧ Named a) {}
      (Run.exec (BindingStore.step noArgs) [] {} boundTwice).1
      (Run.exec (BindingStore.step noArgs) [] {} boundTwice).2 := Run.exec_of_allowed Run.nil (by decide +kernel)
  refine ⟨by decide +kernel, (bindings_survive noArgs hrun .betweenCalls fun _ => true).2 ?_, fun hexact => ?_⟩
  · -- one record is left
    intro e b hb he
    have hentries : (Run.exec (BindingStore.step noArgs) [] {}
        (boundTwice ++ [.destroyQueue 1])).2.bindingDb.entries =
        [(1, bindingDbt noArgs ⟨2, [0x72], [0x6b], ()⟩)] := by decide +kernel
    have he : (e, bindingDbt noArgs b) ∈ [(1, bindingDbt noArgs ⟨2, [0x72], [0x6b], ()⟩)] := hentries ▸ he
    rw [List.mem_singleton, Prod.mk.injEq] at he
    obtain ⟨rfl, hvalue⟩ := he
    rw [bindingDbt_inj noArgs hb ⟨by decide, by decide⟩ hvalue]
    decide +kernel
  · have hstale := (bindings_survive noArgs hrun' (.inDestroyQueue 1) fun _ => true).1 hexact
    have hends := hstale 1 ⟨1, [0x71], [0x6b], ()⟩ ⟨by decide, by decide⟩ (by decide +kernel)
    exact absurd hends.2 (by decide +kernel)

/-- A queue with the name "\0a", and a queue "b" that is bound to an exchange. -/
def boundBehindNul : List (BindingAction Unit) :=
  [.createExchange [0x65], .createQueue [0x00, 0x61], .createQueue [0x62], .bind 1 ⟨2, [0x62], [], ()⟩]

/-- The queue "b" comes after the other one in the order of the cursor, so it is not recovered: its binding counts as
stale, and is not bound again. -/
theorem bindings_lost_behind_nul :
    ¬ ∀ (h : List (BindingEvent Unit)) (s : BindingStore),
      Run (BindingStore.step noArgs) (fun _ s a => Expected s a) {} h s →
      ∀ (c : Crash) (recoverExchange : Bytes → Bool),
        RecoversExactly noArgs (restartBindings noArgs s c recoverExchange)
          (boundAfter (h ++ restartEvents s c recoverExchange)) := by
  intro hall
  have hrun : Run (BindingStore.step noArgs) (fun _ s a => Expected s a) {}
      (Run.exec (BindingStore.step noArgs) [] {} boundBehindNul).1
      (Run.exec (BindingStore.step noArgs) [] {} boundBehindNul).2 := Run.exec_of_allowed Run.nil (by decide +kernel)
  have hrec := (hall _ _ hrun .betweenCalls fun _ => true).rebound (1, ⟨2, [0x62], [], ()⟩)
  have hnone : (restartBindings noArgs (Run.exec (BindingStore.step noArgs) [] {} boundBehindNul).2 .betweenCalls
      fun _ => true).bound = [] := by decide +kernel
  rw [hnone] at hrec
  have hmem : ((1, ⟨2, [0x62], [], ()⟩) : UInt64 × Binding Unit) ∈
      boundAfter ((Run.exec (BindingStore.step noArgs) [] {} boundBehindNul).1 ++
        restartEvents (Run.exec (BindingStore.step noArgs) [] {} boundBehindNul).2 .betweenCalls fun _ => true) := by
    have hevents : (Run.exec (BindingStore.step noArgs) [] {} boundBehindNul).1 =
        [.bound true 1 ⟨2, [0x62], [], ()⟩] := rfl
    have hexchanges :
        (((Run.exec (BindingStore.step noArgs) [] {} boundBehindNul).2.crash .betweenCalls).recoveredExchanges
          fun _ => true).map Prod.fst = [1] := by decide +kernel
    unfold restartEvents
    rw [hevents, hexchanges]
    simp [boundAfter, Crash.events, BindingEvent.apply]
  simpa using hrec.2 hmem

end BdbMsgStore
