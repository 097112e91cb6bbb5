import BdbMsgStore.Bindings

/-!
# Transactions

`TxnCtxt.cpp` and the functions of the store that use a `TxnCtxt`.  All of them have one shape: `begin`, a `try`
block that ends in `commit`, a `catch` block that calls `abort` and throws again, and the destructor, which calls
`abort` once more.  Which of the calls of the database library throw is given by a `Throws`; the calls that are made
are collected in `TxnCtxt.calls`, whether they return or throw.

A handle must not be used any more after `DbTxn::commit` or `DbTxn::abort` was called on it.  `TxnCtxt` forgets the
handle only after such a call has returned, so the rule is kept exactly when the first one returns
(`resolved_once_iff`).
-/

namespace BdbMsgStore

/-! ### The calls of the database library -/

/-- The calls that are given the handle of a transaction, or a cursor that was opened with it. -/
inductive DbOp where
  | openDb (file : String)
  | put
  | del
  | cursorOpen
  | cursorGet
  | cursorDel
  | cursorClose
  deriving DecidableEq, Repr

inductive DbCall where
  | txnBegin
  | op (o : DbOp)
  | commit
  | abort
  deriving DecidableEq, Repr

/-- `DbTxn::commit` and `DbTxn::abort` -/
def DbCall.resolves : DbCall → Bool
  | .commit | .abort => true
  | _ => false

/-- `DbEnv::txn_begin` makes the handle; the other calls use it. -/
def DbCall.usesHandle : DbCall → Bool
  | .txnBegin => false
  | _ => true

/-- How a piece of code is left: normally, by an exception, or not at all because the process is terminated. -/
inductive Exit where
  | returned
  | threw
  | terminated
  deriving DecidableEq, Repr

/-- Which calls throw: those of the `try` block by their number, and the others by their place. -/
structure Throws where
  begin : Bool := false
  op : Nat → Bool := fun _ => false
  close : Bool := false
  commit : Bool := false
  catchAbort : Bool := false
  destructorAbort : Bool := false

/-! ### The members of `TxnCtxt` -/

/-- The members: whether `txn` points to a handle and whether `globalHolder` has the lock.  `calls` are the calls of
the database library so far. -/
structure TxnCtxt where
  txn : Bool := false
  globalHolder : Bool := false
  calls : List DbCall := []
  deriving DecidableEq, Repr

namespace TxnCtxt

variable (t : TxnCtxt) (throws : Bool)

def call (c : DbCall) : TxnCtxt := { t with calls := t.calls ++ [c] }

/-- `begin`.  An error code is thrown as well. -/
def begin (sync : Bool) : Exit × TxnCtxt :=
  let t := t.call .txnBegin
  if throws then (.threw, { t with txn := false })
  else (.returned, { t with txn := true, globalHolder := sync || t.globalHolder })

/-- The common body of `commit` and `abort`: the handle is forgotten and the lock released after the call. -/
def resolve (c : DbCall) : Exit × TxnCtxt :=
  if t.txn then
    let t := t.call c
    if throws then (.threw, t) else (.returned, { t with txn := false, globalHolder := false })
  else (.returned, t)

def commit : Exit × TxnCtxt := t.resolve throws .commit

def abort : Exit × TxnCtxt := t.resolve throws .abort

/-- `~TxnCtxt`: `abort`, and then the members are destroyed.  An exception that leaves it while another one is being
handled terminates the process. -/
def destructor (unwinding : Bool) : Exit × TxnCtxt :=
  match t.abort throws with
  | (.returned, t) => (if unwinding then .threw else .returned, { t with globalHolder := false })
  | (_, t) => if unwinding then (.terminated, t) else (.threw, { t with globalHolder := false })

/-! ### The `try` block -/

/-- The calls one after the other, until one throws: whether one did, and the context. -/
def runOps (throws : Nat → Bool) : Nat → List DbOp → TxnCtxt → Bool × TxnCtxt
  | _, [], t => (false, t)
  | i, o :: ops, t => if throws i then (true, t.call (.op o)) else runOps throws (i + 1) ops (t.call (.op o))

end TxnCtxt

/-- The statements before `commit`: calls with the handle, or a loop over a cursor in a block of its own.  `ops` are
the calls if none of them throws, and `raises` says that an exception of the store follows them. -/
inductive TryBlock where
  | plain (ops : List DbOp) (raises : Bool)
  | scan (ops : List DbOp) (raises : Bool)
  deriving DecidableEq, Repr

namespace TryBlock

/-- The statements are run.  The destructor of `Cursor` closes a cursor that was opened, also when the block is left
by an exception. -/
def run (x : Throws) (t : TxnCtxt) : TryBlock → Exit × TxnCtxt
  | .plain ops raises =>
    let r := TxnCtxt.runOps x.op 0 ops t
    (if r.1 || raises then .threw else .returned, r.2)
  | .scan ops raises =>
    let t := t.call (.op .cursorOpen)
    if x.op 0 then (.threw, t)
    else
      let r := TxnCtxt.runOps x.op 1 ops t
      let t := r.2.call (.op .cursorClose)
      if r.1 || raises then (if x.close then .terminated else .threw, t)
      else (if x.close then .threw else .returned, t)

/-- One of `n` calls throws, the first of which has the number `i`. -/
def anyThrows (throws : Nat → Bool) (i n : Nat) : Bool := (List.range n).any fun k => throws (i + k)

/-- How the statements end, from the calls that throw. -/
def exit (x : Throws) : TryBlock → Exit
  | .plain ops raises => if anyThrows x.op 0 ops.length || raises then .threw else .returned
  | .scan ops raises =>
    if x.op 0 then .threw
    else if anyThrows x.op 1 ops.length || raises then (if x.close then .terminated else .threw)
    else if x.close then .threw else .returned

end TryBlock

/-- A use of `TxnCtxt`: whether it takes the lock, and its statements. -/
structure TxnUse where
  sync : Bool
  body : TryBlock

namespace TxnUse

/-- The `catch` block and, while its exception is handled, the destructor.  An exception of `abort` takes the place of
the one that was caught. -/
def handle (x : Throws) (t : TxnCtxt) : Exit × TxnCtxt := (t.abort x.catchAbort).2.destructor x.destructorAbort true

/-- The whole life of the `TxnCtxt`.  `begin` is called before the `try` block. -/
def run (u : TxnUse) (x : Throws) : Exit × TxnCtxt :=
  match TxnCtxt.begin {} x.begin u.sync with
  | (.returned, t) =>
    match u.body.run x t with
    | (.returned, t) =>
      match t.commit x.commit with
      | (.returned, t) => t.destructor x.destructorAbort false
      | (_, t) => handle x t
    | (.threw, t) => handle x t
    | (.terminated, t) => (.terminated, t)
  | (_, t) => t.destructor x.destructorAbort true

/-! ### The calls of a whole life -/

/-- The calls of `commit` and `abort` on the handle. -/
def resolutions (u : TxnUse) (x : Throws) : List DbCall :=
  let aborts : List DbCall := if x.catchAbort then [.abort, .abort] else [.abort]
  if x.begin then []
  else
    match u.body.exit x with
    | .returned => if x.commit then .commit :: aborts else [.commit]
    | .threw => aborts
    | .terminated => []

end TxnUse

namespace TxnCtxt

/-- Calls that use the handle and do not resolve it. -/
def uses (t : TxnCtxt) (made : List DbOp) : TxnCtxt := { t with calls := t.calls ++ made.map .op }

theorem call_op (t : TxnCtxt) (o : DbOp) : t.call (.op o) = t.uses [o] := rfl

theorem uses_uses (t : TxnCtxt) (made made' : List DbOp) : (t.uses made).uses made' = t.uses (made ++ made') := by
  simp [uses]

private theorem runOps_spec (throws : Nat → Bool) (i : Nat) (ops : List DbOp) (t : TxnCtxt) :
    ∃ made, runOps throws i ops t = (TryBlock.anyThrows throws i ops.length, t.uses made) := by
  induction ops generalizing i t with
  | nil => exact ⟨[], by simp [runOps, uses, TryBlock.anyThrows]⟩
  | cons o ops ih =>
    have hany : TryBlock.anyThrows throws i (o :: ops).length =
        (throws i || TryBlock.anyThrows throws (i + 1) ops.length) := by
      unfold TryBlock.anyThrows
      rw [List.length_cons, List.range_succ_eq_map, List.any_cons, List.any_map, Nat.add_zero]
      congr 2
      funext k
      simp only [Function.comp_apply, Nat.succ_eq_add_one]
      rw [Nat.add_right_comm, Nat.add_assoc]
    rw [runOps, hany, call_op]
    by_cases hthrow : throws i = true
    · rw [if_pos hthrow, hthrow]
      exact ⟨[o], rfl⟩
    · rw [if_neg hthrow, Bool.eq_false_iff.2 hthrow, Bool.false_or]
      obtain ⟨made, hmade⟩ := ih (i + 1) (t.uses [o])
      exact ⟨[o] ++ made, by rw [hmade, uses_uses]⟩

end TxnCtxt

/-- The statements end as `exit` says, and their calls do not resolve the handle. -/
theorem TryBlock.run_spec (x : Throws) (t : TxnCtxt) (b : TryBlock) :
    ∃ made, b.run x t = (b.exit x, t.uses made) := by
  cases b with
  | plain ops raises =>
    obtain ⟨made, hmade⟩ := TxnCtxt.runOps_spec x.op 0 ops t
    refine ⟨made, ?_⟩
    simp only [run, exit, hmade]
  | scan ops raises =>
    obtain ⟨made, hmade⟩ := TxnCtxt.runOps_spec x.op 1 ops (t.uses [.cursorOpen])
    simp only [run, exit, TxnCtxt.call_op, hmade, TxnCtxt.uses_uses]
    by_cases hopen : x.op 0 = true
    · rw [if_pos hopen, if_pos hopen]
      exact ⟨_, rfl⟩
    · rw [if_neg hopen, if_neg hopen]
      refine ⟨[.cursorOpen] ++ made ++ [.cursorClose], ?_⟩
      split <;> rfl

namespace TxnUse

/-- The `catch` block and the destructor resolve a handle that is still there, and twice if the first `abort`
throws. -/
private theorem handle_spec (x : Throws) {t : TxnCtxt} (ht : t.txn = true) :
    (handle x t).2.calls = t.calls ++ (if x.catchAbort then [.abort, .abort] else [.abort]) ∧
      ((handle x t).1 ≠ .terminated → (handle x t).2.globalHolder = false) := by
  unfold handle TxnCtxt.destructor TxnCtxt.abort TxnCtxt.resolve
  cases x.catchAbort <;> cases x.destructorAbort <;> simp [ht, TxnCtxt.call]

/-- The calls of a whole life: the handle is made, it is used, and it is resolved.  At the end the lock is free,
unless the process is terminated. -/
theorem run_spec (u : TxnUse) (x : Throws) :
    (∃ made : List DbOp, (u.run x).2.calls = .txnBegin :: made.map .op ++ u.resolutions x) ∧
      ((u.run x).1 ≠ .terminated → (u.run x).2.globalHolder = false) := by
  unfold run resolutions TxnCtxt.begin
  by_cases hbegin : x.begin = true
  · simp [hbegin, TxnCtxt.destructor, TxnCtxt.abort, TxnCtxt.resolve, TxnCtxt.call]
  · obtain ⟨made, hmade⟩ := u.body.run_spec x ⟨true, u.sync, [.txnBegin]⟩
    have htxn : (TxnCtxt.uses ⟨true, u.sync, [.txnBegin]⟩ made).txn = true := rfl
    simp only [hbegin, Bool.false_eq_true, ↓reduceIte, TxnCtxt.call, Bool.or_false, List.nil_append, hmade]
    cases hexit : u.body.exit x with
    | terminated => exact ⟨⟨made, by simp [TxnCtxt.uses]⟩, fun h => absurd rfl h⟩
    | threw =>
      obtain ⟨hcalls, hlock⟩ := handle_spec x htxn
      exact ⟨⟨made, hcalls⟩, hlock⟩
    | returned =>
      dsimp only
      unfold TxnCtxt.commit TxnCtxt.resolve
      by_cases hcommit : x.commit = true
      · obtain ⟨hcalls, hlock⟩ := handle_spec x
          (t := (TxnCtxt.uses ⟨true, u.sync, [.txnBegin]⟩ made).call .commit) htxn
        simp only [htxn, hcommit, ↓reduceIte]
        refine ⟨⟨made, ?_⟩, hlock⟩
        rw [hcalls]
        simp [TxnCtxt.call, TxnCtxt.uses]
      · simp only [htxn, hcommit, Bool.false_eq_true, ↓reduceIte]
        exact ⟨⟨made, by simp [TxnCtxt.destructor, TxnCtxt.abort, TxnCtxt.resolve, TxnCtxt.call, TxnCtxt.uses]⟩,
          fun _ => rfl⟩

/-! ### The rule for handles -/

/-- The handle is resolved once at most and not used any more afterwards, and at the end of the life of the
`TxnCtxt` the lock is free; a process that was terminated has no such end. -/
structure ResolvedOnce (r : Exit × TxnCtxt) : Prop where
  once : (r.2.calls.filter DbCall.resolves).length ≤ 1
  unusedAfter : ∀ l₁ c l₂, r.2.calls = l₁ ++ c :: l₂ → c.resolves = true → ∀ c' ∈ l₂, c'.usesHandle = false
  released : r.1 ≠ .terminated → r.2.globalHolder = false

/-- The first call that resolves the handle returns: `commit` if the statements before it return, and the `abort` of
the `catch` block if they throw. -/
def Returns (u : TxnUse) (x : Throws) : Prop :=
  x.begin = true ∨
    match u.body.exit x with
    | .returned => x.commit = false
    | .threw => x.catchAbort = false
    | .terminated => True

private theorem resolves_resolutions (u : TxnUse) (x : Throws) : ∀ c ∈ u.resolutions x, c.resolves = true := by
  unfold resolutions
  dsimp only
  cases x.begin <;> cases u.body.exit x <;> cases x.commit <;> cases x.catchAbort <;> simp [DbCall.resolves]

private theorem length_resolutions_iff (u : TxnUse) (x : Throws) : (u.resolutions x).length ≤ 1 ↔ u.Returns x := by
  unfold resolutions Returns
  dsimp only
  cases x.begin <;> cases u.body.exit x <;> cases x.commit <;> cases x.catchAbort <;> simp

/-- Behind the first of at most one resolving call there is nothing. -/
private theorem eq_nil_of_split {front R l₁ l₂ : List DbCall} {c : DbCall} (hfront : ∀ c ∈ front, c.resolves = false)
    (hR : R.length ≤ 1) (hsplit : front ++ R = l₁ ++ c :: l₂) (hc : c.resolves = true) : l₂ = [] := by
  rcases List.append_eq_append_iff.1 hsplit with ⟨mid, -, hRmid⟩ | ⟨mid, hfrontmid, hmid⟩
  · rw [hRmid, List.length_append, List.length_cons] at hR
    exact List.length_eq_zero_iff.1 (by omega)
  · cases mid with
    | nil =>
      rw [List.nil_append] at hmid
      rw [← hmid, List.length_cons] at hR
      exact List.length_eq_zero_iff.1 (by omega)
    | cons c' mid =>
      obtain ⟨rfl, -⟩ := List.cons.inj hmid
      have hno := hfront c (by rw [hfrontmid]; simp)
      rw [hc] at hno
      cases hno

theorem resolvedOnce_iff (u : TxnUse) (x : Throws) : ResolvedOnce (u.run x) ↔ u.Returns x := by
  obtain ⟨⟨made, hcalls⟩, hlock⟩ := u.run_spec x
  have hfront : ∀ c ∈ DbCall.txnBegin :: made.map DbCall.op, c.resolves = false := by simp [DbCall.resolves]
  have hfilter : (u.run x).2.calls.filter DbCall.resolves = u.resolutions x := by
    have hnone : (DbCall.txnBegin :: made.map DbCall.op).filter DbCall.resolves = [] :=
      List.filter_eq_nil_iff.2 fun c hc => by simp [hfront c hc]
    rw [hcalls, List.filter_append, hnone, List.filter_eq_self.2 (resolves_resolutions u x), List.nil_append]
  rw [← length_resolutions_iff]
  constructor
  · intro h
    rw [← hfilter]
    exact h.once
  · intro hlen
    refine ⟨by rw [hfilter]; exact hlen, fun l₁ c l₂ hsplit hres c' hc' => ?_, hlock⟩
    rw [hcalls] at hsplit
    rw [eq_nil_of_split hfront hlen hsplit hres] at hc'
    cases hc'

end TxnUse

/-! ### The uses in the store -/

/-- The calls of a loop over a cursor, and whether the store throws in it. -/
def scanOps (visit : UInt64 × Bytes → MultiMap.Visit Unit) : List (UInt64 × Bytes) → List DbOp × Bool
  | [] => ([.cursorGet], false)
  | e :: l =>
    match visit e with
    | .stop => ([.cursorGet], true)
    | .delete => (.cursorGet :: .cursorDel :: (scanOps visit l).1, (scanOps visit l).2)
    | .keep _ => (.cursorGet :: (scanOps visit l).1, (scanOps visit l).2)

/-- The places in the store where a `TxnCtxt` is used, with what their statements depend on. -/
inductive CallSite where
  /-- `BdbStoreProvider::init` -/
  | init
  /-- `BdbStoreProvider::create(DbPtr, IdSequence&, Persistable&)` -/
  | create
  /-- `BdbStoreProvider::bind` -/
  | bind (bindingDb : BindingDb) (exchangeId : UInt64) (value : Bytes)
  /-- `BdbStoreProvider::deleteBindingsForQueue` -/
  | deleteBindingsForQueue (bindingDb : BindingDb) (queueId : UInt64)
  /-- `BdbStoreProvider::deleteBinding` -/
  | deleteBinding (bindingDb : BindingDb) (exchangeId queueId : UInt64) (bkey : Bytes)
  /-- `JournalImpl::init_message_db`, for one of its files -/
  | initMessageDb (subDbPath : String)
  /-- `JournalImpl::store_msg` -/
  | storeMsg
  /-- `JournalImpl::remove_msg` -/
  | removeMsg

/-- The use of the transaction.  The error codes of `put` and `del` are looked at after the transaction, except by
`bind`, which throws when the record is there already. -/
def CallSite.use : CallSite → TxnUse
  | .init =>
    ⟨false, .plain
      (["queues.db", "config.db", "exchanges.db", "mappings.db", "bindings.db", "general.db"].map .openDb) false⟩
  | .create => ⟨true, .plain [.put] false⟩
  | .bind bindingDb exchangeId value =>
    ⟨true, .plain [.put] (MultiMap.put cursorOrder bindingDb exchangeId value).isNone⟩
  | .deleteBindingsForQueue bindingDb queueId =>
    let scan := scanOps (visitForQueue queueId) bindingDb.entries
    ⟨true, .scan scan.1 scan.2⟩
  | .deleteBinding bindingDb exchangeId queueId bkey =>
    let scan := scanOps (visitBinding exchangeId queueId bkey) (bindingDb.entries.filter fun e => e.1 = exchangeId)
    ⟨true, .scan scan.1 scan.2⟩
  | .initMessageDb subDbPath => ⟨false, .plain [.openDb subDbPath] false⟩
  | .storeMsg => ⟨true, .plain [.put] false⟩
  | .removeMsg => ⟨true, .plain [.del] false⟩

/-- At every place and for every choice of the calls that throw, the handle is resolved once and the lock released
exactly when the first call that resolves the handle returns. -/
theorem resolved_once_iff (site : CallSite) (x : Throws) :
    TxnUse.ResolvedOnce (site.use.run x) ↔ site.use.Returns x := TxnUse.resolvedOnce_iff site.use x

/-- `store_msg` when `DbTxn::commit` throws, with `ENOSPC` for example: the handle goes to `commit` and then to
`abort`. -/
theorem aborted_after_commit :
    (CallSite.storeMsg.use.run { commit := true }).2.calls = [.txnBegin, .op .put, .commit, .abort] ∧
      ¬ ∀ (site : CallSite) (x : Throws), TxnUse.ResolvedOnce (site.use.run x) := by
  have hcalls : (CallSite.storeMsg.use.run { commit := true }).2.calls = [.txnBegin, .op .put, .commit, .abort] := by
    decide
  refine ⟨hcalls, fun h => ?_⟩
  have honce := (h .storeMsg { commit := true }).once
  rw [hcalls] at honce
  exact absurd honce (by decide)

end BdbMsgStore
