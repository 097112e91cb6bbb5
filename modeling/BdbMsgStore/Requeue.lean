import BdbMsgStore.Quiescence

/-!
# A message that comes back to its queue

The broker may enqueue a pair again after its dequeue.  When the second enqueue is called only after the calls and
tasks of the first round have ended (`Alternating`), the round can be forgotten: the pair looks as if it had never
been enqueued, except that the main record of the tracker covers its id (`RequeueInv.forget`).  So in every drained
state the database holds what the last call on the pair says (`requeue_exact`).

Without that condition the dequeue of the first round may delete what the second enqueue has stored
(`requeued_message_lost`): both store tasks take part in the bookkeeping of one pair, and the delete waits for
either.
-/

namespace BdbMsgStore

open StoreProvider

/-! ### The calls on a pair -/

/-- The event is the call of `enqueue` or `dequeue` on the pair. -/
def Event.calls (k : PendingOperationId) : Event → Bool
  | .enqueueCalled _ pid qid _ => (pid, qid) = k
  | .dequeueCalled pid qid => (pid, qid) = k
  | _ => false

theorem Event.key_of_calls {k : PendingOperationId} {e : Event} (he : e.calls k = true) : e.key = k := by
  cases e with
  | enqueueCalled newId pid qid m => exact of_decide_eq_true he
  | dequeueCalled pid qid => exact of_decide_eq_true he
  | _ => cases he

/-- The last call on the pair. -/
def lastCall (k : PendingOperationId) (h : List Event) : Option Event := (h.filter (Event.calls k)).getLast?

/-- What the last call on the pair asks the database to hold: the message of an enqueue, with the bytes that the
database keeps of it, or nothing. -/
def requested (k : PendingOperationId) (h : List Event) : Option Bytes :=
  match lastCall k h with
  | some (.enqueueCalled _ _ _ m) => some (dbtValue (msgEncode m))
  | _ => none

theorem lastCall_append_of_not {k : PendingOperationId} {h ev : List Event} (hev : ∀ e ∈ ev, e.calls k = false) :
    lastCall k (h ++ ev) = lastCall k h := by
  have hnil : ev.filter (Event.calls k) = [] := List.filter_eq_nil_iff.2 fun e he => by simp [hev e he]
  unfold lastCall
  rw [List.filter_append, hnil, List.append_nil]

theorem lastCall_append_singleton {k : PendingOperationId} (h : List Event) {e : Event} (he : e.calls k = true) :
    lastCall k (h ++ [e]) = some e := by
  unfold lastCall
  rw [List.filter_append, List.filter_cons_of_pos he, List.filter_nil, List.getLast?_concat]

theorem requested_ne_none {pid qid : UInt64} {h : List Event} :
    requested (pid, qid) h ≠ none ↔ ∃ newId m, lastCall (pid, qid) h = some (.enqueueCalled newId pid qid m) := by
  unfold requested
  cases hlast : lastCall (pid, qid) h with
  | none => simp
  | some e =>
    cases e with
    | enqueueCalled newId p q m =>
      have hkey := Event.key_of_calls (List.mem_filter.1 (List.mem_of_getLast? hlast)).2
      cases hkey
      exact iff_of_true (by simp) ⟨newId, m, rfl⟩
    | _ => simp

/-- The broker enqueues a pair when it is not enqueued, and when no call and no task of it is in progress, and
dequeues it when it is enqueued.  An id is new when it is allocated, and within `2 ^ 31` of the watermark. -/
def Alternating (h : List Event) (s : StoreProvider) : Action → Prop
  | .enqueue messageId qid _ => requested (s.enqueueId messageId, qid) h = none ∧
      (∀ t ∈ s.threads, t.key ≠ (s.enqueueId messageId, qid)) ∧
      (messageId = 0 → ¬ Issued h s.messageIdSequence.next.1 ∧
        s.messageIdSequence.next.1.toNat < s.tracker.mainRecord.lastPid.toNat + 2 ^ 31)
  | .dequeue pid qid => requested (pid, qid) h ≠ none
  | _ => True

instance (h : List Event) (s : StoreProvider) : ∀ a, Decidable (Alternating h s a)
  | .enqueue messageId qid _ =>
    inferInstanceAs (Decidable (requested (s.enqueueId messageId, qid) h = none ∧
      (∀ t ∈ s.threads, t.key ≠ (s.enqueueId messageId, qid)) ∧
      (messageId = 0 → ¬ Issued h s.messageIdSequence.next.1 ∧
        s.messageIdSequence.next.1.toNat < s.tracker.mainRecord.lastPid.toNat + 2 ^ 31)))
  | .dequeue pid qid => inferInstanceAs (Decidable (requested (pid, qid) h ≠ none))
  | .advance _ | .cleanEnqueueLog | .cleanDequeueLog => isTrue trivial

/-! ### Forgotten rounds -/

/-- `W` keeps the first enqueue of every pair, and follows `φ` as long as the pair is in its first round.  Later
rounds do not allocate an id. -/
def Shadows (W φ : Entries) : Prop := ∀ k, φ k = W k ∨ W k ≠ none ∧ ∀ e ∈ φ k, e.newId = false

namespace Shadows

variable {s s' : StoreProvider} {W φ φ' : Entries} {a : Action}

theorem forget (hsh : Shadows W φ) (k : PendingOperationId) : Shadows W (Function.update φ k none) := by
  intro k'
  by_cases hk : k' = k
  · subst hk
    rw [Function.update_self]
    cases hW : W k' with
    | none => exact Or.inl rfl
    | some e => exact Or.inr ⟨by simp, fun e he => (nomatch he)⟩
  · rw [Function.update_of_ne hk]
    exact hsh k'

private theorem update (hsh : Shadows W φ) (k : PendingOperationId) (x : Option Entry) :
    Shadows (Function.update W k x) (Function.update φ k x) := by
  intro k'
  by_cases hk : k' = k
  · subst hk
    rw [Function.update_self, Function.update_self]
    exact Or.inl rfl
  · rw [Function.update_of_ne hk, Function.update_of_ne hk]
    exact hsh k'

/-- Of a pair in a later round only `φ` changes. -/
private theorem update_later (hsh : Shadows W φ) {k : PendingOperationId} (hW : W k ≠ none) {e : Entry}
    (he : e.newId = false) : Shadows W (Function.update φ k (some e)) := by
  intro k'
  by_cases hk : k' = k
  · subst hk
    rw [Function.update_self]
    refine Or.inr ⟨hW, fun e' he' => ?_⟩
    cases he'
    exact he
  · rw [Function.update_of_ne hk]
    exact hsh k'

private theorem known_update {k : PendingOperationId} {e : Entry} (k' : PendingOperationId)
    (hk' : Function.update W k (some e) k' ≠ none) : W k' ≠ none ∨ Function.update φ k (some e) k' ≠ none := by
  by_cases hk : k' = k
  · refine Or.inr ?_
    rw [hk, Function.update_self]
    simp
  · rw [Function.update_of_ne hk] at hk'
    exact Or.inl hk'

/-- In the first round of a pair a step of its enqueue is a step of the shadow too; in a later round it is none. -/
theorem step (hsh : Shadows W φ) (hstep : RecordStep s s' φ φ' a)
    (hfresh : ∀ messageId qid m, a = .enqueue messageId qid m → messageId = 0 →
      W (s.enqueueId messageId, qid) = none) :
    ∃ W', RecordStep s s' W W' a ∧ Shadows W' φ' ∧ ∀ k, W' k ≠ none → W k ≠ none ∨ φ' k ≠ none := by
  cases hstep with
  | same hrec hseq hφ => exact ⟨W, .same hrec hseq rfl, hφ ▸ hsh, fun k hk => Or.inl hk⟩
  | @call messageId qid m hnew hrec hseq hφ =>
    subst hφ
    rw [Entries.next_enqueue]
    by_cases hW : W (s.enqueueId messageId, qid) = none
    · exact ⟨_, .call hW hrec hseq rfl, hsh.update _ _, known_update⟩
    · have hm : messageId ≠ 0 := fun hm => hW (hfresh messageId qid m rfl hm)
      exact ⟨W, .same hrec (by rw [hseq, if_neg hm]) rfl, hsh.update_later hW (decide_eq_false hm),
        fun k hk => Or.inl hk⟩
  | @advance t k e he hdone hnew hrec hseq hφ =>
    subst hφ
    rcases hsh k with heq | ⟨hW, hold⟩
    · exact ⟨_, .advance (heq ▸ he) hdone hnew hrec hseq rfl, hsh.update _ _, known_update⟩
    · exact ⟨W, .same hrec hseq rfl, hsh.update_later hW (hold e he), fun k hk => Or.inl hk⟩
  | @addPid t k e he hstage hnew hrec hseq hφ =>
    subst hφ
    rcases hsh k with heq | ⟨-, hold⟩
    · exact ⟨_, .addPid (heq ▸ he) hstage hnew hrec hseq rfl, hsh.update _ _, known_update⟩
    · rw [hold e he] at hnew
      cases hnew

end Shadows

/-! ### The invariant of a run -/

/-- What holds in every state of an alternating run.  `g` are the events of the rounds that are not forgotten. -/
structure RequeueInv (h g : List Event) (s : StoreProvider) (W φ : Entries) (ψ : Dequeues) : Prop where
  enqueues : EnqueueSide (fun _ => False) g s φ
  dequeues : DequeueSide (fun _ => False) g s ψ
  watermark : Watermark 0 s W
  shadows : Shadows W φ
  events : g ⊆ h
  known : ∀ k, W k ≠ none → Enqueued h k
  pairs : ∀ k, PairInv none s k (φ k) (ψ k)
  requested : ∀ k, requested k h = if ψ k = none then (φ k).map fun e => dbtValue e.pae.buff else none

namespace RequeueInv

variable {h g ev : List Event} {s s' : StoreProvider} {W φ : Entries} {ψ : Dequeues} {a : Action}
  {k : PendingOperationId}

theorem of_empty (hs : s.Empty) : RequeueInv [] [] s (fun _ => none) (fun _ => none) (fun _ => none) := by
  have hc := (OrderlyInv.of_empty hs).coherent
  exact
    { enqueues := hc.enqueues
      dequeues := hc.dequeues
      watermark := hc.watermark
      shadows := fun _ => Or.inl rfl
      events := List.Subset.refl _
      known := fun _ hk => absurd rfl hk
      pairs := hc.pairs
      requested := fun _ => rfl }

/-- An enqueue that allocates its id is in its first round. -/
private theorem covered (hi : RequeueInv h g s W φ ψ) (k : PendingOperationId) :
    ∀ e ∈ φ k, e.newId = true → s.tracker.mainRecord.Covers k.1 → e.stage = .done := by
  intro e he hnew
  rcases hi.shadows k with heq | ⟨-, hold⟩
  · exact hi.watermark.covered k e (heq ▸ he) hnew
  · rw [hold e he] at hnew
    cases hnew

/-- The events of a pair without those of another one. -/
private def without (k : PendingOperationId) (g : List Event) : List Event := g.filter fun e => decide (e.key ≠ k)

private theorem mem_without {e : Event} : e ∈ without k g ↔ e ∈ g ∧ e.key ≠ k := by
  unfold without
  rw [List.mem_filter, decide_eq_true_eq]

private theorem enqueueInv_without {k' : PendingOperationId} {x : Option Entry} (hk : k' ≠ k)
    (hx : EnqueueInv (fun _ => False) g s k' x) : EnqueueInv (fun _ => False) (without k g) s k' x where
  key := hx.key
  journal := hx.journal
  threads := hx.threads
  called := fun newId m hm => hx.called newId m (mem_without.1 hm).1
  known := by
    intro hne
    obtain ⟨newId, m, hm⟩ := (hx.known hne).resolve_right id
    exact Or.inl ⟨newId, m, mem_without.2 ⟨hm, hk⟩⟩
  returned := fun hm => hx.returned (mem_without.1 hm).1
  duplicate := hx.duplicate
  pending := hx.pending
  smart := hx.smart
  main := hx.main

private theorem dequeueInv_without {k' : PendingOperationId} {y : Option DeqStage} (hk : k' ≠ k)
    (hy : DequeueInv (fun _ => False) g s k' y) : DequeueInv (fun _ => False) (without k g) s k' y where
  threads := hy.threads
  called := fun hm => hy.called (mem_without.1 hm).1
  known := fun hne => Or.inl (mem_without.2 ⟨(hy.known hne).resolve_right id, hk⟩)
  returned := fun hm => hy.returned (mem_without.1 hm).1

section Forget

variable (hi : RequeueInv h g s W φ ψ) (hidle : ∀ t ∈ s.threads, t.key ≠ k)

include hi hidle

/-- A pair whose enqueue is done has no entries in the tracker. -/
private theorem enqueueInv_forgotten : EnqueueInv (fun _ => False) (without k g) s k none where
  key := fun e he => (nomatch he)
  journal := fun e he => (nomatch he)
  threads := fun t _ htk => by
    rw [List.count_eq_zero.2 fun ht => hidle t ht htk]
    rfl
  called := fun newId m hm => absurd rfl (mem_without.1 hm).2
  known := fun hne => absurd rfl hne
  returned := fun hm => absurd rfl (mem_without.1 hm).2
  duplicate := by
    refine iff_of_false (fun hdup => ?_) (by simp)
    obtain ⟨e, he, -, hreg⟩ := (hi.enqueues k).duplicate.1 hdup
    rw [hi.enqueues.stage_of_idle hidle he] at hreg
    cases hreg
  pending := fun hpend => by
    obtain ⟨-, e, he, hst⟩ := (hi.enqueues k).pending hpend
    rw [hi.enqueues.stage_of_idle hidle he] at hst
    cases hst
  smart := fun e he => (nomatch he)
  main := fun e he => (nomatch he)

omit hi in
private theorem dequeueInv_forgotten : DequeueInv (fun _ => False) (without k g) s k none where
  threads := fun t _ htk => by
    rw [List.count_eq_zero.2 fun ht => hidle t ht htk]
    rfl
  called := fun hm => absurd rfl (mem_without.1 hm).2
  known := fun hne => absurd rfl hne
  returned := fun hm => absurd rfl (mem_without.1 hm).2

variable (hk : ψ k ≠ none)

include hk

/-- A dequeued pair is not in the database. -/
private theorem pairInv_forgotten : PairInv none s k none none where
  fresh := fun _ => rfl
  waiting := fun _ _ e he => (nomatch he)
  taken := fun hc => (nomatch hc)
  unregistered := fun n _ e he => (nomatch he)
  ready := fun hc => (nomatch hc)
  running := by simp
  stored := by
    rw [(hi.pairs k).stored_of_idle hi.enqueues hi.dequeues hidle, if_neg hk]
    rfl

/-- A round of the pair that has ended with a dequeue is forgotten. -/
theorem forget :
    ∃ g', RequeueInv h g' s W (Function.update φ k none) (Function.update ψ k none) := by
  refine ⟨without k g, fun k' => ?_, fun k' => ?_, hi.watermark, hi.shadows.forget k,
    fun e he => hi.events (mem_without.1 he).1, hi.known, fun k' => ?_, fun k' => ?_⟩
  all_goals by_cases hkk : k' = k
  · subst hkk
    rw [Function.update_self]
    exact hi.enqueueInv_forgotten hidle
  · rw [Function.update_of_ne hkk]
    exact enqueueInv_without hkk (hi.enqueues k')
  · subst hkk
    rw [Function.update_self]
    exact dequeueInv_forgotten hidle
  · rw [Function.update_of_ne hkk]
    exact dequeueInv_without hkk (hi.dequeues k')
  · subst hkk
    rw [Function.update_self, Function.update_self]
    exact hi.pairInv_forgotten hidle hk
  · rw [Function.update_of_ne hkk, Function.update_of_ne hkk]
    exact hi.pairs k'
  · subst hkk
    rw [hi.requested, if_neg hk, Function.update_self, Function.update_self]
    rfl
  · rw [Function.update_of_ne hkk, Function.update_of_ne hkk]
    exact hi.requested k'

end Forget

/-! ### Steps -/

private theorem freshId (hi : RequeueInv h g s W φ ψ) (hok : Alternating h s a) : Watermark.FreshId 0 s W a := by
  cases a with
  | enqueue messageId qid m =>
    intro hm
    obtain ⟨hfresh, hwin⟩ := hok.2.2 hm
    refine ⟨UInt64.pos_iff_ne_zero.2 (IdSequence.next_ne_zero _), hwin, fun q e he => ?_⟩
    refine absurd ⟨q, hi.known _ ?_⟩ hfresh
    rw [show W _ = some e from he]
    simp
  | _ => trivial

/-- The step of a thread is no call. -/
private theorem calls_runThread {t : Thread} {e : Event} (he : e ∈ (s.runThread t).2.2) : e.calls k = false := by
  cases e with
  | enqueueCalled newId pid qid m => exact absurd he (enqueueCalled_notMem_runThread t newId pid qid m)
  | dequeueCalled pid qid => exact absurd he (dequeueCalled_notMem_runThread t pid qid)
  | _ => rfl

/-- What the last call on a pair asks for changes with the calls on the pair only. -/
private theorem requested_step (hi : RequeueInv h g s W φ ψ)
    (hfree : ∀ messageId qid m, a = .enqueue messageId qid m → ψ (s.enqueueId messageId, qid) = none)
    (hst : s.step a = some (s', ev)) (k : PendingOperationId) :
    BdbMsgStore.requested k (h ++ ev) =
      if ψ.next s a k = none then (φ.next s a k).map fun e => dbtValue e.pae.buff else none := by
  have hquiet : (∀ e ∈ ev, e.calls k = false) → BdbMsgStore.requested k (h ++ ev) = BdbMsgStore.requested k h := by
    intro hev
    unfold BdbMsgStore.requested
    rw [lastCall_append_of_not hev]
  by_cases hak : a.key s = some k
  · cases a with
    | enqueue messageId qid m =>
      cases hak
      obtain ⟨-, -, -, rfl⟩ := step_enqueue hst
      rw [show ψ.next s (.enqueue messageId qid m) = ψ from rfl, if_pos (hfree messageId qid m rfl),
        Entries.next_enqueue, Function.update_self]
      unfold BdbMsgStore.requested
      rw [lastCall_append_singleton h (by exact decide_eq_true rfl)]
      rfl
    | dequeue pid qid =>
      cases hak
      obtain ⟨-, rfl⟩ := step_dequeue hst
      simp only [Dequeues.next, Function.update_self, reduceCtorEq, ↓reduceIte]
      unfold BdbMsgStore.requested
      rw [lastCall_append_singleton h (by exact decide_eq_true rfl)]
    | advance t =>
      cases hak
      obtain ⟨-, -, rfl⟩ := step_advance hst
      rw [hquiet (fun e he => calls_runThread he), hi.requested]
      by_cases hte : t.isEnqueue = true
      · rw [Dequeues.next_advance_enqueue hte]
        simp only [Entries.next, if_pos hte, Function.update_self, Option.map_map]
        rfl
      · have hte' : t.isEnqueue = false := by simpa using hte
        rw [Entries.next_advance_dequeue hte']
        simp only [Dequeues.next, hte', Bool.false_eq_true, ↓reduceIte, Function.update_self, Option.map_eq_none_iff]
    | cleanEnqueueLog => cases hak
    | cleanDequeueLog => cases hak
  · obtain ⟨-, hkey⟩ := step_sameAt hst hak
    rw [hquiet (fun e he => ?_), hi.requested, Entries.next_of_ne hak, Dequeues.next_of_ne hak]
    by_contra hc
    exact hkey e he (Event.key_of_calls (by simpa using hc))

/-- A step, when the pair of an enqueue has no round that is not forgotten. -/
private theorem step_of_free (hi : RequeueInv h g s W φ ψ) (hok : Alternating h s a)
    (hfree : ∀ messageId qid m, a = .enqueue messageId qid m →
      φ (s.enqueueId messageId, qid) = none ∧ ψ (s.enqueueId messageId, qid) = none)
    (hst : s.step a = some (s', ev)) : ∃ W', RequeueInv (h ++ ev) (g ++ ev) s' W' (φ.next s a) (ψ.next s a) := by
  have hnew : ∀ messageId qid m, a = .enqueue messageId qid m → φ (s.enqueueId messageId, qid) = none :=
    fun messageId qid m ha => (hfree messageId qid m ha).1
  have hdeq : ∀ pid qid, a = .dequeue pid qid → ψ (pid, qid) = none := by
    rintro pid qid rfl
    by_contra hne
    have hreq := hi.requested (pid, qid)
    rw [if_neg hne] at hreq
    exact hok hreq
  obtain ⟨W', hstep, hshadows, hknown⟩ := hi.shadows.step (RecordStep.of_step hi.enqueues hnew hst) (by
    rintro messageId qid m rfl hm
    by_contra hne
    have hissued := hi.known _ hne
    rw [show s.enqueueId messageId = s.messageIdSequence.next.1 by simp [enqueueId, hm]] at hissued
    exact (hok.2.2 hm).1 ⟨qid, hissued⟩)
  have henqueues := hi.enqueues.step hnew hst
  have hevents : g ++ ev ⊆ h ++ ev := fun e he =>
    List.mem_append.2 ((List.mem_append.1 he).imp_left fun hg => hi.events hg)
  refine ⟨W', henqueues, hi.dequeues.step hdeq hst,
    hi.watermark.of_recordStep hstep (hi.freshId hok) (step_stopped hst), hshadows, hevents, fun k hk => ?_,
    fun k => ?_, hi.requested_step (fun messageId qid m ha => (hfree messageId qid m ha).2) hst⟩
  · rcases hknown k hk with hold | hnow
    · obtain ⟨newId, m, hm⟩ := hi.known k hold
      exact ⟨newId, m, List.mem_append_left _ hm⟩
    · obtain ⟨newId, m, hm⟩ := ((henqueues k).known hnow).resolve_right id
      exact ⟨newId, m, hevents hm⟩
  · exact (hi.pairs k).step hi.enqueues hi.dequeues (hi.covered k) hi.watermark.stopped
      (fun messageId qid m ha hk => hk ▸ ⟨(hfree messageId qid m ha).1, (hfree messageId qid m ha).2, rfl⟩)
      (fun pid qid ha hk => hk ▸ hdeq pid qid ha) hst

theorem step (hi : RequeueInv h g s W φ ψ) (hok : Alternating h s a) (hst : s.step a = some (s', ev)) :
    ∃ g' W' φ' ψ', RequeueInv (h ++ ev) g' s' W' φ' ψ' := by
  by_cases hround : ∃ messageId qid m, a = .enqueue messageId qid m ∧ ψ (s.enqueueId messageId, qid) ≠ none
  · -- the pair comes back: its last round is forgotten first
    obtain ⟨messageId, qid, m, rfl, hψ⟩ := hround
    obtain ⟨g', hi'⟩ := hi.forget hok.2.1 hψ
    obtain ⟨W', hi''⟩ := hi'.step_of_free hok (by
      rintro messageId' qid' m' heq
      cases heq
      exact ⟨Function.update_self .., Function.update_self ..⟩) hst
    exact ⟨_, W', _, _, hi''⟩
  · obtain ⟨W', hi'⟩ := hi.step_of_free hok (by
      rintro messageId qid m rfl
      have hψ : ψ (s.enqueueId messageId, qid) = none := by
        by_contra hne
        exact hround ⟨messageId, qid, m, rfl, hne⟩
      have hreq := hi.requested (s.enqueueId messageId, qid)
      rw [hok.1, if_pos hψ] at hreq
      exact ⟨Option.map_eq_none_iff.1 hreq.symm, hψ⟩) hst
    exact ⟨_, W', _, _, hi'⟩

theorem of_run {s₀ : StoreProvider} (hs₀ : s₀.Empty) (hrun : Run StoreProvider.step Alternating s₀ h s) :
    ∃ g W φ ψ, RequeueInv h g s W φ ψ := by
  refine hrun.invariant (I := fun h s => ∃ g W φ ψ, RequeueInv h g s W φ ψ) ⟨_, _, _, _, of_empty hs₀⟩ ?_
  rintro h s a s' ev ⟨g, W, φ, ψ, hi⟩ hok hst
  exact hi.step hok hst

end RequeueInv

/-- In every state of every alternating run from an empty store in which both pools are drained, the database holds
what the last call on a pair asks for: the message of an enqueue, and nothing after a dequeue. -/
theorem requeue_exact {s₀ s : StoreProvider} {h : List Event} (hs₀ : s₀.Empty)
    (hrun : Run StoreProvider.step Alternating s₀ h s) (hdrained : s.Drained) {pid qid : UInt64}
    (hcall : ¬ s.Calling pid qid) :
    (s.stored pid qid ≠ none ↔ ∃ newId m, lastCall (pid, qid) h = some (.enqueueCalled newId pid qid m)) ∧
      s.stored pid qid = requested (pid, qid) h := by
  obtain ⟨g, W, φ, ψ, hi⟩ := RequeueInv.of_run hs₀ hrun
  have hidle : ∀ t ∈ s.threads, t.key ≠ (pid, qid) := fun t ht hk => hcall ⟨t, ht, hdrained t ht, hk⟩
  have hstored : s.stored pid qid = requested (pid, qid) h := by
    rw [(hi.pairs (pid, qid)).stored_of_idle hi.enqueues hi.dequeues hidle, hi.requested]
    split
    · cases φ (pid, qid) <;> rfl
    · rfl
  refine ⟨?_, hstored⟩
  rw [hstored, requested_ne_none]

/-- A message is enqueued and dequeued, and comes back to its queue after the tasks of the first round. -/
private def movedBack : List Action :=
  enqueueCall 0 1 1 ++ storeTask 1 1 ++ dequeueCall 1 1 ++ dequeueTask 1 1 ++ enqueueCall 1 1 1 ++
    [.put, .logComplete, .addPidDup].map fun pc => .advance (.store pc (smallMessage.pending 1 1))

theorem requeue_exact_movedBack :
    (Run.exec StoreProvider.step [] (singleQueue false) movedBack).2.stored 1 1 = some (msgEncode smallMessage) := by
  have hallowed : Run.Allowed StoreProvider.step Alternating [] (singleQueue false) movedBack := by decide +kernel
  have hthreads : (Run.exec StoreProvider.step [] (singleQueue false) movedBack).2.threads = [] := by decide +kernel
  rw [(requeue_exact (empty_singleQueue false) (Run.exec_of_allowed Run.nil hallowed) (drained_of_threads hthreads)
    (not_calling_of_threads hthreads 1 1)).2]
  decide +kernel

/-- The message comes back while its first store task has not run. -/
private def comesBackEarly : List Action :=
  enqueueCall 0 1 1 ++ dequeueCall 1 1 ++ enqueueCall 1 1 1 ++
    ([.put, .logComplete, .addPidDup].map fun pc => .advance (.store pc (smallMessage.pending 1 1))) ++
    storeTask 1 1 ++ dequeueTask 1 1

/-- The first store task takes the duplicate entry of the second enqueue, so the delete of the dequeue waits for both
store tasks and removes what the second enqueue has stored. -/
theorem requeued_message_lost :
    ∃ h s, Run StoreProvider.step (fun _ _ _ => True) (singleQueue false) h s ∧ s.threads = [] ∧
      h.filter (Event.calls (1, 1)) =
        [.enqueueCalled true 1 1 smallMessage, .dequeueCalled 1 1, .enqueueCalled false 1 1 smallMessage] ∧
      s.stored 1 1 = none := by
  have hallowed : Run.Allowed StoreProvider.step (fun _ _ _ => True) [] (singleQueue false) comesBackEarly := by
    decide +kernel
  refine ⟨_, _, Run.exec_of_allowed Run.nil hallowed, ?_, ?_, ?_⟩
  · decide +kernel
  · decide +kernel
  · decide +kernel

end BdbMsgStore
