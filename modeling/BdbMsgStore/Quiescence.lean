import BdbMsgStore.DequeueSide
import BdbMsgStore.Watermark

/-!
# What is in the databases when nothing is in progress

The watermark of the tracker orders a delete behind its insert: an id that a call has allocated is covered by
`mainRecord` only after its store task is done (`Watermark`), and a pair enqueued under an older id stands in
`dupMap` until then.  So an `async_dequeue` task that has stopped waiting finds the store of its pair done, and the
database holds exactly what the stages of the enqueue and of the dequeue of each pair say (`PairInv`).  When no call
and no task of a pair is in progress, this is: the pair was enqueued and not dequeued (`OrderlyInv.stored_iff`).
-/

namespace BdbMsgStore

open StoreProvider

/-! ### The database at a pair -/

/-- What the database holds at a pair, by the stages of its enqueue and of its dequeue.  A pair without an enqueue
has the content it had before the run. -/
def content (base : Option Bytes) (x : Option Entry) (y : Option DeqStage) : Option Bytes :=
  if y.any DeqStage.removed then none
  else
    match x with
    | none => base
    | some e => if e.stage.stored && !y.any DeqStage.cancels then some (dbtValue e.pae.buff) else none

/-- A pair between its enqueue and its dequeue. -/
structure PairInv (base : Option Bytes) (s : StoreProvider) (k : PendingOperationId) (x : Option Entry)
    (y : Option DeqStage) : Prop where
  fresh : x ≠ none → base = none
  waiting : s.enableSmartAsync = true → y.any DeqStage.cancels = false → ∀ e ∈ x, e.stage.pending →
    s.tracker.isPending k.1 k.2 = true
  taken : y.any DeqStage.cancels = true → s.enableSmartAsync = true ∧ s.tracker.isPending k.1 k.2 = false ∧
    ∃ e ∈ x, e.stage ≠ .logStart ∧ e.stage ≠ .willEnqueue ∧ e.stage ≠ .put
  unregistered : ∀ n, y = some (.wait (.mainTest n)) ∨ y = some (.wait (.mainWait n)) →
    ∀ e ∈ x, e.newId = true ∨ e.stage = .done
  ready : y.any DeqStage.ready = true → ∀ e ∈ x, e.stage = .done
  running : y ≠ some (.wait (.returned (-2)))
  stored : s.stored k.1 k.2 = content base x y

namespace PairInv

variable {old : PendingOperationId → Prop} {h ev : List Event} {base : Option Bytes} {s s' : StoreProvider}
  {k : PendingOperationId} {x : Option Entry} {y : Option DeqStage}

theorem frame (hp : PairInv base s k x y) (hpend : s'.tracker.isPending k.1 k.2 = s.tracker.isPending k.1 k.2)
    (hsmart : s'.enableSmartAsync = s.enableSmartAsync) (hstored : s'.stored k.1 k.2 = s.stored k.1 k.2) :
    PairInv base s' k x y where
  fresh := hp.fresh
  waiting := fun hsm hc e he hst => by rw [hpend]; exact hp.waiting (hsmart ▸ hsm) hc e he hst
  taken := fun hc => by rw [hsmart, hpend]; exact hp.taken hc
  unregistered := hp.unregistered
  ready := hp.ready
  running := hp.running
  stored := hstored.trans hp.stored

/-- A dequeue past its removal has removed the message, so it is past its wait. -/
private theorem ready_of_removed {d : DeqStage} (hd : d.removed = true) : d.ready = true := by
  cases d <;> first | rfl | cases hd

/-- The call of `enqueue`, on a pair without a dequeue. -/
theorem enqueue_call (hp : PairInv base s k none none) (hbase : base = none) {e : Entry} (he : e.stage = .logStart)
    (hstored : s'.stored k.1 k.2 = s.stored k.1 k.2) : PairInv base s' k (some e) none where
  fresh := fun _ => hbase
  waiting := fun _ _ e' he' hst => by
    cases he'
    rw [he] at hst
    cases hst
  taken := fun hc => nomatch hc
  unregistered := fun n hn => by simp at hn
  ready := fun hc => nomatch hc
  running := by simp
  stored := by
    rw [hstored, hp.stored, hbase]
    simp [content, he, EnqStage.stored]

/-- The dequeue moves to a stage that says the same about the database and the pending entry. -/
theorem restage (hp : PairInv base s k x y) {d : DeqStage} (hc : d.cancels = y.any DeqStage.cancels)
    (hr : d.removed = y.any DeqStage.removed) (hready : d.ready = true → ∀ e ∈ x, e.stage = .done)
    (hunreg : ∀ n, d = .wait (.mainTest n) ∨ d = .wait (.mainWait n) → ∀ e ∈ x, e.newId = true ∨ e.stage = .done)
    (hrun : d ≠ .wait (.returned (-2)))
    (hpend : s'.tracker.isPending k.1 k.2 = s.tracker.isPending k.1 k.2)
    (hsmart : s'.enableSmartAsync = s.enableSmartAsync) (hstored : s'.stored k.1 k.2 = s.stored k.1 k.2) :
    PairInv base s' k x (some d) := by
  have hp' := hp.frame hpend hsmart hstored
  exact
    { fresh := hp'.fresh
      waiting := fun hsm hd => hp'.waiting hsm (hc ▸ hd)
      taken := fun hd => hp'.taken (hc ▸ hd)
      unregistered := fun n hn => hunreg n (by simpa using hn)
      ready := hready
      running := by simpa using hrun
      stored := by
        rw [hp'.stored]
        simp only [content, Option.any_some, hc, hr] }

/-- What the database of the pair holds after a step of the enqueue, when no dequeue has removed it. -/
private theorem put_of_next {e : Entry} (hp : PairInv base s k (some e) y) (hx : EnqueueInv old h s k (some e))
    (hndone : e.stage ≠ .done)
    (hcontent : s.stored k.1 k.2 =
      if e.stage.stored && !y.any DeqStage.cancels then some (dbtValue e.pae.buff) else none) :
    (if e.stage = .put then some ((s.stored k.1 k.2).getD (dbtValue e.pae.buff)) else s.stored k.1 k.2) =
      if (e.next s).stage.stored && !y.any DeqStage.cancels then some (dbtValue (e.next s).pae.buff) else none := by
  have hkey : e.pae.opId = k := hx.key e rfl
  rw [show (e.next s).stage = e.nextStage s from rfl, show (e.next s).pae = e.pae from rfl]
  cases hstage : e.stage with
  | put =>
    -- no dequeue has taken the pair, or the store task would have skipped this step
    have hc : y.any DeqStage.cancels = false := by
      by_contra hc
      obtain ⟨-, -, e', he', -, -, h3⟩ := hp.taken (by simpa using hc)
      cases he'
      exact h3 hstage
    rw [hstage] at hcontent
    rw [hcontent, hc]
    simp [EnqStage.stored, Entry.nextStage, hstage]
  | check =>
    rw [hstage] at hcontent
    rw [hcontent]
    cases hpe : s.tracker.isPending e.pae.msgId e.pae.queueId with
    | true => simp [EnqStage.stored, Entry.nextStage, hstage, hpe]
    | false =>
      -- the store task skips the pair: a dequeue has taken it
      have hc : y.any DeqStage.cancels = true := by
        by_contra hc
        have hwait := hp.waiting (hx.smart e rfl (Or.inr hstage)) (by simpa using hc) e rfl (by rw [hstage]; rfl)
        rw [← hkey] at hwait
        rw [show s.tracker.isPending e.pae.opId.1 e.pae.opId.2 = false from hpe] at hwait
        cases hwait
      simp [EnqStage.stored, hc]
  | done => exact absurd hstage hndone
  | logStart =>
    rw [hstage] at hcontent
    rw [hcontent]
    cases hsm : s.enableSmartAsync <;> simp [EnqStage.stored, Entry.nextStage, hstage, hsm]
  | schedule =>
    rw [hstage] at hcontent
    rw [hcontent]
    cases hsm : s.enableSmartAsync <;> simp [EnqStage.stored, Entry.nextStage, hstage, hsm]
  | addPidDup =>
    rw [hstage] at hcontent
    rw [hcontent]
    cases hdu : s.tracker.isDuplicate e.pae.msgId e.pae.queueId <;>
      simp [EnqStage.stored, Entry.nextStage, hstage, hdu]
  | _ =>
    rw [hstage] at hcontent
    rw [hcontent]
    simp [EnqStage.stored, Entry.nextStage, hstage]

/-- A step of the enqueue of the pair. -/
theorem enqueue_advance {e : Entry} {t : Thread} (hp : PairInv base s t.key (some e) y)
    (hx : EnqueueInv old h s t.key (some e)) (het : e.thread = some t)
    (hpend' : s'.tracker = (s.runThread t).1.tracker) (hsmart : s'.enableSmartAsync = s.enableSmartAsync)
    (hstored' : s'.stored t.key.1 t.key.2 = (s.runThread t).1.stored t.key.1 t.key.2) :
    PairInv base s' t.key (some (e.next s)) y := by
  have hkey : e.pae.opId = t.key := hx.key e rfl
  have hk1 : t.key.1 = e.pae.msgId := by rw [← hkey]; rfl
  have hk2 : t.key.2 = e.pae.queueId := by rw [← hkey]; rfl
  have hj : s.journalList.contains e.pae.queueId = true := by
    have := hx.journal e rfl
    rwa [hk2] at this
  have hpend := EnqueueSide.isPending_runThread (s := s) het
  have hstored := EnqueueSide.stored_runThread het hj
  rw [← hk1, ← hk2, ← hpend'] at hpend
  rw [← hk1, ← hk2, ← hstored'] at hstored
  have hndone : e.stage ≠ .done := by
    intro hd
    rw [Entry.thread, hd] at het
    cases het
  have hnready : y.any DeqStage.ready = false := by
    by_contra hr
    exact hndone (hp.ready (by simpa using hr) e rfl)
  have hnremoved : y.any DeqStage.removed = false := by
    by_contra hr
    cases y with
    | none => exact hr rfl
    | some d =>
      rw [Option.any_some] at hr hnready
      rw [ready_of_removed (by simpa using hr)] at hnready
      cases hnready
  have hcontent := hp.stored
  simp only [content, hnremoved, Bool.false_eq_true, ↓reduceIte] at hcontent
  refine
    { fresh := fun _ => hp.fresh (by simp)
      waiting := fun hsm hc e' he' hst => ?_
      taken := fun hc => ?_
      unregistered := fun n hn e' he' => ?_
      ready := fun hr => by rw [hnready] at hr; cases hr
      running := hp.running
      stored := ?_ }
  · cases he'
    rw [hsmart] at hsm
    replace hst : (e.nextStage s).pending = true := hst
    have hwait := hp.waiting hsm hc e rfl
    rw [hpend]
    unfold Entry.nextStage at hst
    cases hstage : e.stage <;> simp only [hstage] at hst hwait ⊢
    case logStart => rw [hsm] at hst; cases hst
    case schedule => exact hwait rfl
    case check => split at hst <;> cases hst
    case addPidDup => split at hst <;> cases hst
    all_goals cases hst
  · obtain ⟨hsm, hnp, e', he', h1, h2, h3⟩ := hp.taken hc
    cases he'
    rw [hsmart, hpend]
    refine ⟨hsm, ?_, _, rfl, ?_⟩
    · cases hstage : e.stage <;> first | exact hnp | rfl | exact absurd hstage h2
    · show e.nextStage s ≠ _ ∧ e.nextStage s ≠ _ ∧ e.nextStage s ≠ _
      rw [hk1, hk2] at hnp
      unfold Entry.nextStage
      cases hstage : e.stage <;> simp_all
      split <;> simp
  · cases he'
    rcases hp.unregistered n hn e rfl with hnew | hd
    · exact Or.inl hnew
    · exact absurd hd hndone
  · rw [hstored]
    simp only [content, hnremoved, Bool.false_eq_true, ↓reduceIte]
    exact hp.put_of_next hx hndone hcontent

/-- A step of the wait of a dequeue.  It ends only when the watermark covers the id, and then the store of the pair is
done (`hcov`). -/
private theorem wait_advance {pc : WaitPc} (hp : PairInv base s k x (some (.wait pc))) (hx : EnqueueInv old h s k x)
    (hcov : ∀ e ∈ x, e.newId = true → s.tracker.mainRecord.Covers k.1 → e.stage = .done)
    (hstop : s.tracker.stopped = false) (hpend : s'.tracker.isPending k.1 k.2 = s.tracker.isPending k.1 k.2)
    (hsmart : s'.enableSmartAsync = s.enableSmartAsync) (hstored : s'.stored k.1 k.2 = s.stored k.1 k.2) :
    PairInv base s' k x (some ((DeqStage.wait pc).next s k)) := by
  have hunreg := hp.unregistered
  -- the next stage of the wait, with what it promises about the store of the pair
  have hnext : ∀ pc' : WaitPc, (∀ r, pc' = .returned r → r ≠ -2 ∧ (r = -1 ∨ ∀ e ∈ x, e.stage = .done)) →
      (∀ n, pc' = .mainTest n ∨ pc' = .mainWait n → ∀ e ∈ x, e.newId = true ∨ e.stage = .done) →
      PairInv base s' k x (some (.wait pc')) := by
    intro pc' hret hreg
    refine hp.restage rfl rfl (fun hr => ?_) (fun n hn => hreg n (by simpa using hn)) ?_ hpend hsmart hstored
    · cases pc' with
      | returned r =>
        rcases (hret r rfl).2 with hr' | hd
        · rw [hr'] at hr
          cases hr
        · exact hd
      | _ => cases hr
    · intro he
      cases he
      exact (hret (-2) rfl).1 rfl
  have hagain : PairInv base s' k x (some (.wait (.returned (-1)))) :=
    hnext _ (fun r hr => by cases hr; exact ⟨by decide, Or.inl rfl⟩) (fun n hn => by simp at hn)
  cases pc with
  | dupTest n =>
    simp only [DeqStage.next, PidTracker.waitForPid]
    split
    · exact hnext _ (fun r hr => (by cases hr)) (fun n hn => by simp at hn)
    · rename_i hnd
      split
      · exact hagain
      · exact hnext _ (fun r hr => (by cases hr)) (fun _ _ => hx.newId_or_done (by simpa using hnd))
  | dupWait n =>
    simp only [DeqStage.next, PidTracker.waitForPid, hstop, Bool.false_eq_true, ↓reduceIte]
    split
    · exact hagain
    · exact hnext _ (fun r hr => (by cases hr)) (fun n hn => by simp at hn)
  | mainTest n =>
    simp only [DeqStage.next, PidTracker.waitForPid]
    split
    · exact hnext _ (fun r hr => (by cases hr)) (fun _ _ => hunreg n (Or.inl rfl))
    · rename_i hle
      refine hnext _ (fun r hr => ?_) (fun n hn => by simp at hn)
      cases hr
      refine ⟨by omega, Or.inr fun e he => ?_⟩
      rcases hunreg n (Or.inl rfl) e he with hnew | hd
      · exact hcov e he hnew (Or.inl (not_lt.1 hle))
      · exact hd
  | mainWait n =>
    simp only [DeqStage.next, PidTracker.waitForPid, hstop, Bool.false_eq_true, ↓reduceIte]
    split
    · exact hagain
    · exact hnext _ (fun r hr => (by cases hr)) (fun _ _ => hunreg n (Or.inr rfl))
  | returned r =>
    simp only [DeqStage.next]
    split
    · exact hnext _ (fun r hr => (by cases hr)) (fun n hn => by simp at hn)
    · rename_i hr
      have hr2 : r ≠ -2 := fun he => hp.running (by rw [he])
      rw [if_neg hr2]
      exact hp.restage rfl rfl (fun _ => hp.ready (by simpa [DeqStage.ready] using hr)) (fun n hn => by simp at hn)
        (by simp) hpend hsmart hstored

/-- A step of the dequeue of the pair.  The wait of the task ends only when the watermark covers the id, and then
the store of the pair is done (`hcov`). -/
theorem dequeue_advance {d : DeqStage} {t : Thread} (hp : PairInv base s k x (some d)) (hx : EnqueueInv old h s k x)
    (hdt : d.thread k = some t)
    (hcov : ∀ e ∈ x, e.newId = true → s.tracker.mainRecord.Covers k.1 → e.stage = .done)
    (hstop : s.tracker.stopped = false) (hpend' : s'.tracker = (s.runThread t).1.tracker)
    (hsmart : s'.enableSmartAsync = s.enableSmartAsync)
    (hstored' : s'.stored k.1 k.2 = (s.runThread t).1.stored k.1 k.2) :
    PairInv base s' k x (some (d.next s k)) := by
  have hpend := DequeueSide.isPending_runThread (s := s) hdt
  have hstored := DequeueSide.stored_runThread (s := s) hdt
  rw [← hpend'] at hpend
  rw [← hstored'] at hstored
  have hready := hp.ready
  cases d with
  | check =>
    simp only [DeqStage.next]
    cases hpe : s.tracker.isPending k.1 k.2 with
    | true =>
      -- the pair is taken from its store task, which will skip the `put`
      obtain ⟨hsm, e, he, hst⟩ := hx.pending hpe
      obtain rfl : x = some e := he
      have hns : e.stage.stored = false := by
        cases hstage : e.stage <;> rw [hstage] at hst <;> first | rfl | cases hst
      refine ⟨hp.fresh, fun _ hc => (by cases hc), fun _ => ⟨hsmart ▸ hsm, ?_, e, rfl, ?_⟩, fun n hn => by simp at hn,
        fun hr => (by cases hr), by simp, ?_⟩
      · rw [hpend]
        simp
      · cases hstage : e.stage <;> simp [hstage, EnqStage.pending] at hst ⊢
      · rw [hstored, if_neg (by simp), hp.stored]
        simp [content, hns]
    | false =>
      refine hp.restage rfl rfl (fun hr => (by cases hr)) (fun n hn => by simp at hn) (by simp) ?_ hsmart ?_
      · rw [hpend, hpe]
        rfl
      · rw [hstored, if_neg (by simp)]
  | logStart =>
    exact hp.restage rfl rfl (fun hr => (by cases hr)) (fun n hn => by simp [DeqStage.next] at hn)
      (by simp [DeqStage.next]) (by rw [hpend]; simp) hsmart (by rw [hstored, if_neg (by simp)])
  | schedule =>
    exact hp.restage rfl rfl (fun hr => (by cases hr)) (fun n hn => by simp [DeqStage.next] at hn)
      (by simp [DeqStage.next]) (by rw [hpend]; simp) hsmart (by rw [hstored, if_neg (by simp)])
  | wait pc =>
    exact hp.wait_advance hx hcov hstop (by rw [hpend]; simp) hsmart (by rw [hstored, if_neg (by simp)])
  | remove =>
    have hpend₁ : s'.tracker.isPending k.1 k.2 = s.tracker.isPending k.1 k.2 := by rw [hpend]; simp
    refine
      { fresh := hp.fresh
        waiting := fun hsm _ => by rw [hpend₁]; exact hp.waiting (hsmart ▸ hsm) rfl
        taken := fun hc => (by cases hc)
        unregistered := fun n hn => by simp [DeqStage.next] at hn
        ready := fun _ => hready rfl
        running := by simp [DeqStage.next]
        stored := ?_ }
    rw [hstored]
    simp [content, DeqStage.next, DeqStage.removed]
  | logComplete =>
    exact hp.restage rfl rfl (fun _ => hready rfl) (fun n hn => by simp [DeqStage.next] at hn)
      (by simp [DeqStage.next]) (by rw [hpend]; simp) hsmart (by rw [hstored, if_neg (by simp)])
  | logEnqueueComplete =>
    exact hp.restage rfl rfl (fun hr => (by cases hr)) (fun n hn => by simp [DeqStage.next] at hn)
      (by simp [DeqStage.next]) (by rw [hpend]; simp) hsmart (by rw [hstored, if_neg (by simp)])
  | done => cases hdt
  | cancelled => cases hdt

/-! ### The steps of the system at a pair -/

variable {oldE oldD : PendingOperationId → Prop} {φ : Entries} {ψ : Dequeues} {a : Action}

/-- Every step of the system keeps the pair, if the pair is enqueued and dequeued only where it may be, and if the
ids that the main record covers are stored. -/
theorem step (hE : EnqueueSide oldE h s φ) (hD : DequeueSide oldD h s ψ) (hp : PairInv base s k (φ k) (ψ k))
    (hcov : ∀ e ∈ φ k, e.newId = true → s.tracker.mainRecord.Covers k.1 → e.stage = .done)
    (hstop : s.tracker.stopped = false)
    (henq : ∀ messageId qid m, a = .enqueue messageId qid m → (s.enqueueId messageId, qid) = k →
      φ k = none ∧ ψ k = none ∧ base = none)
    (hdeq : ∀ pid qid, a = .dequeue pid qid → (pid, qid) = k → ψ k = none) (hst : s.step a = some (s', ev)) :
    PairInv base s' k (φ.next s a k) (ψ.next s a k) := by
  have hsm := step_enableSmartAsync hst
  by_cases hak : a.key s = some k
  · cases a with
    | enqueue messageId qid m =>
      cases hak
      obtain ⟨hφ, hψ, hb⟩ := henq messageId qid m rfl rfl
      rw [hφ, hψ] at hp
      obtain ⟨-, -, rfl, -⟩ := step_enqueue hst
      rw [Entries.next_enqueue, Function.update_self, show ψ.next s (.enqueue messageId qid m) = ψ from rfl, hψ]
      exact hp.enqueue_call hb rfl rfl
    | dequeue pid qid =>
      cases hak
      rw [hdeq pid qid rfl rfl] at hp
      obtain ⟨rfl, -⟩ := step_dequeue hst
      simp only [Dequeues.next, Function.update_self]
      rw [show φ.next s (.dequeue pid qid) = φ from rfl]
      exact hp.restage (by split <;> rfl) (by split <;> rfl) (fun hr => by split at hr <;> cases hr)
        (fun n hn => by split at hn <;> simp at hn) (by split <;> simp) rfl rfl rfl
    | advance t =>
      cases hak
      obtain ⟨ht, rfl, -⟩ := step_advance hst
      by_cases hte : t.isEnqueue = true
      · obtain ⟨e, he, het⟩ := hE.entry_of_mem ht hte
        have hx := hE t.key
        rw [he] at hx hp
        rw [Entries.next_advance hte he, Function.update_self, Dequeues.next_advance_enqueue hte]
        exact hp.enqueue_advance hx het rfl hsm rfl
      · have hte' : t.isEnqueue = false := by simpa using hte
        obtain ⟨d, hd, hdt⟩ := hD.stage_of_mem ht hte'
        rw [hd] at hp
        rw [Entries.next_advance_dequeue hte', Dequeues.next_advance hte' hd, Function.update_self]
        exact hp.dequeue_advance (hE t.key) hdt hcov hstop rfl hsm rfl
    | cleanEnqueueLog => cases hak
    | cleanDequeueLog => cases hak
  · obtain ⟨hsame, -⟩ := step_sameAt hst hak
    rw [Entries.next_of_ne hak, Dequeues.next_of_ne hak]
    exact hp.frame hsame.pending hsm hsame.stored

/-- When no call and no task of the pair is in progress, the content of the database is given by the pair having an
enqueue and no dequeue. -/
theorem stored_of_idle (hE : EnqueueSide oldE h s φ) (hD : DequeueSide oldD h s ψ)
    (hp : PairInv base s k (φ k) (ψ k)) (hidle : ∀ t ∈ s.threads, t.key ≠ k) :
    s.stored k.1 k.2 = if ψ k = none then (φ k).elim base fun e => some (dbtValue e.pae.buff) else none := by
  rw [hp.stored]
  cases hψ : ψ k with
  | none =>
    cases hφ : φ k with
    | none => simp [content]
    | some e => simp [content, hE.stage_of_idle hidle hφ, EnqStage.stored]
  | some d =>
    rcases hD.stage_of_idle hidle hψ with rfl | rfl
    · simp [content, DeqStage.removed]
    · -- a cancelled pair has an entry, which is done
      obtain ⟨-, -, e, he, -⟩ := hp.taken (by rw [hψ]; rfl)
      rw [show φ k = some e from he]
      simp [content, DeqStage.cancels, DeqStage.removed]

end PairInv

/-! ### The whole system -/

/-- All pairs together.  `base` is the content of the databases before the run, `low` the first watermark. -/
structure Coherent (base : PendingOperationId → Option Bytes) (low : UInt64) (oldE oldD : PendingOperationId → Prop)
    (h : List Event) (s : StoreProvider) (φ : Entries) (ψ : Dequeues) : Prop where
  enqueues : EnqueueSide oldE h s φ
  dequeues : DequeueSide oldD h s ψ
  watermark : Watermark low s φ
  pairs : ∀ k, PairInv (base k) s k (φ k) (ψ k)

/-- What an action must satisfy: no pair is enqueued or dequeued twice, or enqueued after its dequeue, and a new id
is fresh. -/
structure Disciplined (base : PendingOperationId → Option Bytes) (low : UInt64) (s : StoreProvider) (φ : Entries)
    (ψ : Dequeues) (a : Action) : Prop where
  enqueue : ∀ messageId qid m, a = .enqueue messageId qid m → φ (s.enqueueId messageId, qid) = none ∧
    ψ (s.enqueueId messageId, qid) = none ∧ base (s.enqueueId messageId, qid) = none
  dequeue : ∀ pid qid, a = .dequeue pid qid → ψ (pid, qid) = none
  freshId : Watermark.FreshId low s φ a

namespace Coherent

variable {base : PendingOperationId → Option Bytes} {low : UInt64} {oldE oldD : PendingOperationId → Prop}
  {h ev : List Event} {s s' : StoreProvider} {φ : Entries} {ψ : Dequeues} {a : Action}

theorem step (hc : Coherent base low oldE oldD h s φ ψ) (hok : Disciplined base low s φ ψ a)
    (hst : s.step a = some (s', ev)) : Coherent base low oldE oldD (h ++ ev) s' (φ.next s a) (ψ.next s a) := by
  have hnew : ∀ messageId qid m, a = .enqueue messageId qid m → φ (s.enqueueId messageId, qid) = none :=
    fun messageId qid m ha => (hok.enqueue messageId qid m ha).1
  exact
    { enqueues := hc.enqueues.step hnew hst
      dequeues := hc.dequeues.step hok.dequeue hst
      watermark := hc.watermark.step hc.enqueues hnew hok.freshId hst
      pairs := fun k => (hc.pairs k).step hc.enqueues hc.dequeues (hc.watermark.covered k) hc.watermark.stopped
        (fun messageId qid m ha hk => hk ▸ hok.enqueue messageId qid m ha)
        (fun pid qid ha hk => hk ▸ hok.dequeue pid qid ha) hst }

theorem stored_of_idle (hc : Coherent base low oldE oldD h s φ ψ) {k : PendingOperationId}
    (hidle : ∀ t ∈ s.threads, t.key ≠ k) :
    s.stored k.1 k.2 = if ψ k = none then (φ k).elim (base k) fun e => some (dbtValue e.pae.buff) else none :=
  (hc.pairs k).stored_of_idle hc.enqueues hc.dequeues hidle

end Coherent

/-! ### Runs from an empty store -/

/-- The broker enqueues a pair at most once, and dequeues it at most once and after its enqueue.  An id is new when
it is allocated, and within `2 ^ 31` of the watermark: fewer ids than that are outstanding. -/
def Orderly (h : List Event) (s : StoreProvider) : Action → Prop
  | .enqueue messageId qid _ => ¬ Enqueued h (s.enqueueId messageId, qid) ∧
      (messageId = 0 → ¬ Issued h s.messageIdSequence.next.1 ∧
        s.messageIdSequence.next.1.toNat < s.tracker.mainRecord.lastPid.toNat + 2 ^ 31)
  | .dequeue pid qid => Enqueued h (pid, qid) ∧ .dequeueCalled pid qid ∉ h
  | _ => True

instance (h : List Event) (s : StoreProvider) : ∀ a, Decidable (Orderly h s a)
  | .enqueue messageId qid _ =>
    inferInstanceAs (Decidable (¬ Enqueued h (s.enqueueId messageId, qid) ∧
      (messageId = 0 → ¬ Issued h s.messageIdSequence.next.1 ∧
        s.messageIdSequence.next.1.toNat < s.tracker.mainRecord.lastPid.toNat + 2 ^ 31)))
  | .dequeue pid qid => inferInstanceAs (Decidable (Enqueued h (pid, qid) ∧ .dequeueCalled pid qid ∉ h))
  | .advance _ | .cleanEnqueueLog | .cleanDequeueLog => isTrue trivial

/-- What holds in every state of an orderly run from an empty store. -/
structure OrderlyInv (h : List Event) (s : StoreProvider) (φ : Entries) (ψ : Dequeues) : Prop where
  coherent : Coherent (fun _ => none) 0 (fun _ => False) (fun _ => False) h s φ ψ
  after : ∀ k : PendingOperationId, .dequeueCalled k.1 k.2 ∈ h → Enqueued h k

namespace OrderlyInv

variable {h ev : List Event} {s s' : StoreProvider} {φ : Entries} {ψ : Dequeues} {a : Action}

theorem of_empty (hs : s.Empty) : OrderlyInv [] s (fun _ => none) (fun _ => none) where
  coherent :=
    { enqueues := EnqueueSide.of_empty hs
      dequeues := DequeueSide.of_empty hs
      watermark := by
        refine ⟨?_, ?_, UInt64.zero_le, fun p hp => Or.inl ?_, fun k e he => (nomatch he),
          fun p q q' ⟨e, he, _⟩ => (nomatch he), fun k e he => (nomatch he)⟩
        · rw [hs.tracker]
          intro g hg
          cases hg
        · rw [hs.tracker]
        · rw [hs.tracker] at hp
          rcases hp with hp | hp
          · exact hp
          · cases hp
      pairs := fun k =>
        { fresh := fun _ => rfl
          waiting := fun _ _ e he => (nomatch he)
          taken := fun hc => (nomatch hc)
          unregistered := fun n _ e he => (nomatch he)
          ready := fun hc => (nomatch hc)
          running := by simp
          stored := hs.stored k.1 k.2 } }
  after := fun k hk => nomatch hk

/-- An enqueue is known by its event, and so is a dequeue. -/
theorem entry_iff (hi : OrderlyInv h s φ ψ) (k : PendingOperationId) : φ k ≠ none ↔ Enqueued h k := by
  constructor
  · intro hne
    exact ((hi.coherent.enqueues k).known hne).resolve_right id
  · rintro ⟨newId, m, hm⟩ hnone
    obtain ⟨e, he, -⟩ := (hi.coherent.enqueues k).called newId m hm
    rw [hnone] at he
    cases he

theorem stage_iff (hi : OrderlyInv h s φ ψ) (k : PendingOperationId) :
    ψ k ≠ none ↔ .dequeueCalled k.1 k.2 ∈ h :=
  ⟨fun hne => ((hi.coherent.dequeues k).known hne).resolve_right id, (hi.coherent.dequeues k).called⟩

theorem disciplined (hi : OrderlyInv h s φ ψ) (hok : Orderly h s a) : Disciplined (fun _ => none) 0 s φ ψ a where
  enqueue := by
    rintro messageId qid m rfl
    have hφ : φ (s.enqueueId messageId, qid) = none := by
      by_contra hne
      exact hok.1 ((hi.entry_iff _).1 hne)
    refine ⟨hφ, ?_, rfl⟩
    by_contra hne
    exact hok.1 (hi.after _ ((hi.stage_iff _).1 hne))
  dequeue := by
    rintro pid qid rfl
    by_contra hne
    exact hok.2 ((hi.stage_iff _).1 hne)
  freshId := by
    cases a with
    | enqueue messageId qid m =>
      intro hid
      obtain ⟨hfresh, hwin⟩ := hok.2 hid
      refine ⟨UInt64.pos_iff_ne_zero.2 (IdSequence.next_ne_zero _), hwin, fun q e he => ?_⟩
      refine absurd ⟨q, (hi.entry_iff _).1 ?_⟩ hfresh
      rw [show φ _ = some e from he]
      simp
    | _ => trivial

theorem step (hi : OrderlyInv h s φ ψ) (hok : Orderly h s a) (hst : s.step a = some (s', ev)) :
    OrderlyInv (h ++ ev) s' (φ.next s a) (ψ.next s a) := by
  refine ⟨hi.coherent.step (hi.disciplined hok) hst, fun k hk => ?_⟩
  have hold : Enqueued h k → Enqueued (h ++ ev) k := fun ⟨newId, m, hm⟩ => ⟨newId, m, List.mem_append_left _ hm⟩
  rcases List.mem_append.1 hk with hk | hk
  · exact hold (hi.after k hk)
  · cases a with
    | enqueue messageId qid m =>
      obtain ⟨-, -, -, rfl⟩ := step_enqueue hst
      cases List.mem_singleton.1 hk
    | dequeue pid qid =>
      obtain ⟨-, rfl⟩ := step_dequeue hst
      obtain ⟨h1, h2⟩ := Event.dequeueCalled.inj (List.mem_singleton.1 hk)
      refine hold ?_
      have := hok.1
      rwa [← h1, ← h2] at this
    | advance t =>
      obtain ⟨-, -, rfl⟩ := step_advance hst
      exact absurd hk (dequeueCalled_notMem_runThread t k.1 k.2)
    | cleanEnqueueLog => cases hst; cases hk
    | cleanDequeueLog => cases hst; cases hk

theorem of_run {s₀ : StoreProvider} (hs₀ : s₀.Empty) (hrun : Run StoreProvider.step Orderly s₀ h s) :
    ∃ φ ψ, OrderlyInv h s φ ψ := by
  refine hrun.invariant (I := fun h s => ∃ φ ψ, OrderlyInv h s φ ψ) ⟨_, _, of_empty hs₀⟩ ?_
  rintro h s a s' ev ⟨φ, ψ, hi⟩ hok hst
  exact ⟨_, _, hi.step hok hst⟩

/-- A pair with no call and no task in progress: its database content, by the calls made so far. -/
theorem stored_iff (hi : OrderlyInv h s φ ψ) {pid qid : UInt64} (hidle : ∀ t ∈ s.threads, t.key ≠ (pid, qid))
    (v : Bytes) :
    s.stored pid qid = some v ↔
      (∃ newId m, .enqueueCalled newId pid qid m ∈ h ∧ v = dbtValue (msgEncode m)) ∧ .dequeueCalled pid qid ∉ h := by
  rw [hi.coherent.stored_of_idle hidle]
  have hψ := hi.stage_iff (pid, qid)
  have hφ := hi.entry_iff (pid, qid)
  have hx := hi.coherent.enqueues (pid, qid)
  by_cases hd : .dequeueCalled pid qid ∈ h
  · rw [if_neg (hψ.2 hd)]
    simp [hd]
  · rw [if_pos (by by_contra hne; exact hd (hψ.1 hne))]
    constructor
    · intro hv
      refine ⟨?_, hd⟩
      cases he : φ (pid, qid) with
      | none => rw [he] at hv; cases hv
      | some e =>
        rw [he] at hv
        obtain ⟨newId, m, hm⟩ := hφ.1 (by simp [he])
        obtain ⟨e', he', hpae⟩ := hx.called newId m hm
        obtain rfl : e = e' := Option.some.inj (he.symm.trans he')
        refine ⟨newId, m, hm, ?_⟩
        obtain rfl : dbtValue e.pae.buff = v := Option.some.inj hv
        rw [hpae]
        rfl
    · rintro ⟨⟨newId, m, hm, rfl⟩, -⟩
      obtain ⟨e, he, hpae⟩ := hx.called newId m hm
      rw [show φ (pid, qid) = some e from he]
      show some (dbtValue e.pae.buff) = _
      rw [hpae]
      rfl

end OrderlyInv

/-- Both pools are drained. -/
def StoreProvider.Drained (s : StoreProvider) : Prop := ∀ t ∈ s.threads, t.isTask = false

/-- A call of the broker on the pair is in progress. -/
def StoreProvider.Calling (s : StoreProvider) (pid qid : UInt64) : Prop :=
  ∃ t ∈ s.threads, t.isTask = false ∧ t.key = (pid, qid)

theorem StoreProvider.drained_of_threads {s : StoreProvider} (h : s.threads = []) : s.Drained := by
  intro t ht
  rw [h] at ht
  cases ht

theorem StoreProvider.not_calling_of_threads {s : StoreProvider} (h : s.threads = []) (pid qid : UInt64) :
    ¬ s.Calling pid qid := by
  rintro ⟨t, ht, -⟩
  rw [h] at ht
  cases ht

/-- In every state of every orderly run from an empty store in which both pools are drained, a message is in the
database of a queue, with what a database keeps of the bytes of `msgEncode`, exactly when it was enqueued there and
not dequeued.  A run in the other mode with the same calls leaves the same database. -/
theorem drained_exact {s₀ s : StoreProvider} {h : List Event} (hs₀ : s₀.Empty)
    (hrun : Run StoreProvider.step Orderly s₀ h s) (hdrained : s.Drained) {pid qid : UInt64}
    (hcall : ¬ s.Calling pid qid) :
    (s.stored pid qid ≠ none ↔ Enqueued h (pid, qid) ∧ .dequeueCalled pid qid ∉ h) ∧
    (∀ newId m, .enqueueCalled newId pid qid m ∈ h → .dequeueCalled pid qid ∉ h →
      s.stored pid qid = some (dbtValue (msgEncode m))) ∧
    ∀ (s₁ s' : StoreProvider) (h' : List Event), s₁.Empty → Run StoreProvider.step Orderly s₁ h' s' → s'.Drained →
      ¬ s'.Calling pid qid →
      (∀ newId m, .enqueueCalled newId pid qid m ∈ h' ↔ .enqueueCalled newId pid qid m ∈ h) →
      (.dequeueCalled pid qid ∈ h' ↔ .dequeueCalled pid qid ∈ h) → s'.stored pid qid = s.stored pid qid := by
  have hidle : ∀ {s : StoreProvider}, s.Drained → ¬ s.Calling pid qid → ∀ t ∈ s.threads, t.key ≠ (pid, qid) :=
    fun hd hc t ht hk => hc ⟨t, ht, hd t ht, hk⟩
  obtain ⟨φ, ψ, hi⟩ := OrderlyInv.of_run hs₀ hrun
  have hiff := hi.stored_iff (hidle hdrained hcall)
  refine ⟨?_, fun newId m hm hd => (hiff _).2 ⟨⟨newId, m, hm, rfl⟩, hd⟩, fun s₁ s' h' hs₁ hrun' hd' hc' he hde => ?_⟩
  · constructor
    · intro hne
      obtain ⟨v, hv⟩ := Option.ne_none_iff_exists'.1 hne
      obtain ⟨⟨newId, m, hm, -⟩, hd⟩ := (hiff v).1 hv
      exact ⟨⟨newId, m, hm⟩, hd⟩
    · rintro ⟨⟨newId, m, hm⟩, hd⟩
      rw [(hiff _).2 ⟨⟨newId, m, hm, rfl⟩, hd⟩]
      simp
  · obtain ⟨φ', ψ', hi'⟩ := OrderlyInv.of_run hs₁ hrun'
    have hiff' := hi'.stored_iff (hidle hd' hc')
    refine Option.ext fun v => ?_
    rw [hiff', hiff]
    simp only [he, hde]

/-- Two messages are enqueued, the second is stored first, and the first is dequeued after its store. -/
private def twoMessages : List Action :=
  let call (pid : UInt64) : List Action :=
    [.enqueue 0 1 smallMessage, .advance (.enqueue .logStart (smallMessage.pending pid 1)),
      .advance (.enqueue .willEnqueue (smallMessage.pending pid 1)),
      .advance (.enqueue .schedule (smallMessage.pending pid 1))]
  let task (pid : UInt64) : List Action :=
    [.check, .put, .logComplete, .addPidDup, .addPidMain].map fun pc =>
      .advance (.store pc (smallMessage.pending pid 1))
  call 1 ++ call 2 ++ task 2 ++ task 1 ++ [.dequeue 1 1] ++
    ([.check, .logStart, .schedule].map fun pc => .advance (.dequeue pc 1 1)) ++
    ([.wait (.dupTest 0), .wait (.mainTest 0), .wait (.returned 0), .remove, .logComplete].map fun pc =>
      .advance (.asyncDequeue pc 1 1))

theorem drained_exact_twoMessages :
    let s := (Run.exec StoreProvider.step [] (singleQueue true) twoMessages).2
    s.stored 2 1 = some (msgEncode smallMessage) ∧ ¬ s.stored 1 1 ≠ none := by
  have hallowed : Run.Allowed StoreProvider.step Orderly [] (singleQueue true) twoMessages := by decide
  have hrun := Run.exec_of_allowed Run.nil hallowed
  have hthreads : (Run.exec StoreProvider.step [] (singleQueue true) twoMessages).2.threads = [] := by decide
  have hdrained := drained_of_threads hthreads
  have hcall := fun pid => not_calling_of_threads hthreads pid 1
  refine ⟨(drained_exact (empty_singleQueue true) hrun hdrained (hcall 2)).2.1 true smallMessage (by decide)
    (by decide), fun hne => ?_⟩
  exact ((drained_exact (empty_singleQueue true) hrun hdrained (hcall 1)).1.1 hne).2 (by decide)

end BdbMsgStore
