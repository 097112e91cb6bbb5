import BdbMsgStore.PidTracker
import Mathlib.Data.List.Infix
import Mathlib.Order.Bounds.Basic

/-!
# The watermark after any calls of `addPid`

`addPid` compares ids by their difference as an `int`.  The watermark of a set of ids above the base `b` is the
greatest `n` such that the set fills `(b, n]`.  After a sequence of calls the record holds this watermark and the ids
above it, exactly if each test of a difference was made on a difference whose low 32 bits lie between `2` and
`2 ^ 31 - 1` (`addPid_exact`).  Only two differences matter after each call: that of the id that was added, and that
of the least id above the watermark, at which the loop over the gaps stops.
-/

namespace BdbMsgStore

open Words

/-! ### The watermark of a set of ids -/

/-- The ids fill the interval from `b`, exclusive, to `n`, inclusive. -/
def Fills (b : UInt64) (ids : List UInt64) (n : UInt64) : Prop := ∀ x, b < x → x ≤ n → x ∈ ids

/-- The greatest `n` such that every id in `(b, n]` is there. -/
def IsWatermark (b : UInt64) (ids : List UInt64) (n : UInt64) : Prop := IsGreatest {n | Fills b ids n} n

/-- The least id above `n`. -/
def IsNextAbove (n : UInt64) (ids : List UInt64) (g : UInt64) : Prop := IsLeast {x | x ∈ ids ∧ n < x} g

/-- The difference as an `int` is larger than `1`. -/
def Ahead (n g : UInt64) : Prop := 2 ≤ (g - n).toNat % 2 ^ 32 ∧ (g - n).toNat % 2 ^ 32 < 2 ^ 31

theorem ahead_iff {n g : UInt64} : Ahead n g ↔ 1 < castInt (g - n) := by
  unfold Ahead castInt
  split <;> omega

private theorem toNat_succ_of_lt {n p : UInt64} (h : n < p) : (n + 1).toNat = n.toNat + 1 := by
  have := UInt64.lt_iff_toNat_lt.1 h
  have := p.toNat_lt
  rw [UInt64.toNat_add]
  exact Nat.mod_eq_of_lt (by simp only [UInt64.reduceToNat]; omega)

private theorem castInt_succ {n p : UInt64} (h : p.toNat = n.toNat + 1) : castInt (p - n) = 1 := by
  have hsub : (p - n).toNat = 1 := by
    rw [UInt64.toNat_sub_of_le _ _ (UInt64.le_iff_toNat_le.2 (by omega))]
    omega
  rw [castInt_of_lt (by rw [hsub]; decide), hsub]
  rfl

namespace IsWatermark

variable {b n m p : UInt64} {ids ids' : List UInt64}

theorem unique (h : IsWatermark b ids n) (h' : IsWatermark b ids m) : n = m := IsGreatest.unique h h'

theorem le (h : IsWatermark b ids n) : b ≤ n := h.2 fun _ hx hx' => absurd hx (not_lt.2 hx')

/-- An id above the base that is missing lies above the watermark. -/
theorem lt_of_notMem (h : IsWatermark b ids n) (hb : b < p) (hp : p ∉ ids) : n < p := by
  by_contra hle
  exact hp (h.1 p hb (not_lt.1 hle))

/-- The id that follows the watermark is missing. -/
theorem succ_notMem (h : IsWatermark b ids n) (hp : n < p) : n + 1 ∉ ids := by
  intro hmem
  have hsucc := toNat_succ_of_lt hp
  have hle : n + 1 ≤ n := h.2 fun x hx hx' => by
    rcases le_or_gt x n with hxn | hxn
    · exact h.1 x hx hxn
    · have heq : x = n + 1 := by
        rw [UInt64.le_iff_toNat_le] at hx'
        rw [UInt64.lt_iff_toNat_lt] at hxn
        rw [← UInt64.toNat_inj]
        omega
      rw [heq]
      exact hmem
  rw [UInt64.le_iff_toNat_le] at hle
  omega

/-- Nothing above the base is there. -/
theorem of_forall_le (h : ∀ x ∈ ids, x ≤ b) : IsWatermark b ids b := by
  refine ⟨fun _ hx hx' => absurd hx (not_lt.2 hx'), fun m hm => ?_⟩
  by_contra hlt
  exact hlt (h m (hm m (not_le.1 hlt) le_rfl))

/-- The id that follows the base is missing. -/
theorem of_succ_notMem (hp : b < p) (h : b + 1 ∉ ids) : IsWatermark b ids b := by
  refine ⟨fun _ hx hx' => absurd hx (not_lt.2 hx'), fun m hm => ?_⟩
  by_contra hlt
  have hsucc := toNat_succ_of_lt hp
  have hbm := UInt64.lt_iff_toNat_lt.1 (not_le.1 hlt)
  exact h (hm _ (UInt64.lt_iff_toNat_lt.2 (by omega)) (UInt64.le_iff_toNat_le.2 (by omega)))

/-- The base may be moved up over ids that are there, and only the ids above it matter. -/
theorem rebase (hb : b ≤ n) (h : Fills b ids n) (hids : ∀ x, n < x → (x ∈ ids ↔ x ∈ ids')) :
    IsWatermark b ids m ↔ IsWatermark n ids' m := by
  have hsets : {m | Fills b ids m} = {m | Fills n ids' m} := by
    ext m
    constructor
    · intro hm x hx hx'
      exact (hids x hx).1 (hm x (lt_of_le_of_lt hb hx) hx')
    · intro hm x hx hx'
      rcases le_or_gt x n with hxn | hxn
      · exact h x hx hxn
      · exact (hids x hxn).2 (hm x hxn hx')
  unfold IsWatermark
  rw [hsets]

/-- If the least id follows the base, the base may be moved to it. -/
theorem cons_succ (hnext : p.toNat = b.toNat + 1) : IsWatermark b (p :: ids) m ↔ IsWatermark p ids m := by
  refine rebase (UInt64.le_iff_toNat_le.2 (by omega)) (fun x hx hx' => ?_) fun x hx => ?_
  · have heq : x = p := by
      rw [UInt64.lt_iff_toNat_lt] at hx
      rw [UInt64.le_iff_toNat_le] at hx'
      rw [← UInt64.toNat_inj]
      omega
    rw [heq]
    exact List.mem_cons_self ..
  · rw [List.mem_cons]
    exact or_iff_right (ne_of_gt hx)

/-- If the least id does not follow the base, the watermark is the base. -/
theorem cons_hole (hb : b < p) (hnext : p.toNat ≠ b.toNat + 1) (hids : ∀ x ∈ ids, p < x) :
    IsWatermark b (p :: ids) b := by
  refine of_succ_notMem hb fun hmem => ?_
  have hsucc := toNat_succ_of_lt hb
  have hlt := UInt64.lt_iff_toNat_lt.1 hb
  have hge : p ≤ b + 1 := by
    rcases List.mem_cons.1 hmem with heq | hmem
    · exact le_of_eq heq.symm
    · exact le_of_lt (hids _ hmem)
  rw [UInt64.le_iff_toNat_le] at hge
  omega

end IsWatermark

namespace IsNextAbove

variable {n g y : UInt64} {ids : List UInt64}

/-- The least id. -/
theorem head (hn : n < g) (hids : ∀ x ∈ ids, g < x) : IsNextAbove n (g :: ids) g := by
  refine ⟨⟨List.mem_cons_self .., hn⟩, ?_⟩
  rintro x ⟨hx, -⟩
  rcases List.mem_cons.1 hx with rfl | hx
  · exact le_rfl
  · exact le_of_lt (hids x hx)

/-- An id that does not lie above `n` does not matter. -/
theorem cons_of_le (hg : g ≤ n) : IsNextAbove n (g :: ids) y ↔ IsNextAbove n ids y := by
  have hsets : {x | x ∈ g :: ids ∧ n < x} = {x | x ∈ ids ∧ n < x} := by
    ext x
    refine and_congr_left fun hx => ?_
    rw [List.mem_cons]
    exact or_iff_right (ne_of_gt (lt_of_le_of_lt hg hx))
  unfold IsNextAbove
  rw [hsets]

end IsNextAbove

/-! ### The loop over the gaps -/

namespace PidRecord

private theorem le_popEntries (l : List (UInt64 × Unit)) (n : UInt64) : n ≤ (OrdMap.popEntries takeGap l n).2 := by
  induction l generalizing n with
  | nil => exact le_rfl
  | cons a l ih =>
    obtain ⟨g, u⟩ := a
    cases hg : takeGap n g with
    | none => rw [OrdMap.popEntries_cons_none hg]
    | some n' =>
      rw [OrdMap.popEntries_cons_some hg]
      refine le_trans ?_ (ih n')
      unfold takeGap at hg
      split at hg
      · cases hg
        exact le_max_right ..
      · cases hg

/-- The loop ends at the watermark with the ids above it left, exactly if the least of them passes the test. -/
private theorem popEntries_exact_iff {l : List (UInt64 × Unit)} {n : UInt64} (hs : l.Pairwise (fun a b => a.1 < b.1))
    (hl : ∀ e ∈ l, n < e.1) :
    let d := OrdMap.popEntries takeGap l n
    let ids := l.map Prod.fst
    (IsWatermark n ids d.2 ∧ ∀ x, (x, ()) ∈ d.1 ↔ x ∈ ids ∧ d.2 < x) ↔
      ∀ m g, IsWatermark n ids m → IsNextAbove m ids g → Ahead m g := by
  induction l generalizing n with
  | nil =>
    refine ⟨fun _ m g _ hg => absurd hg.1.1 List.not_mem_nil, fun _ => ⟨?_, fun x => ?_⟩⟩
    · exact IsWatermark.of_forall_le fun x hx => absurd hx List.not_mem_nil
    · simp [OrdMap.popEntries]
  | cons a l ih =>
    obtain ⟨g, u⟩ := a
    rw [List.pairwise_cons] at hs
    have hng : n < g := hl (g, u) (List.mem_cons_self ..)
    have hmax : max g n = g := max_eq_left (le_of_lt hng)
    have habove : ∀ x ∈ l.map Prod.fst, g < x := by
      intro x hx
      obtain ⟨e, he, rfl⟩ := List.mem_map.1 hx
      exact hs.1 e he
    intro d ids
    by_cases hnext : g.toNat = n.toNat + 1
    · -- the least id follows: it is taken, and the watermark over the rest starts from it
      have hstep : takeGap n g = some g := by
        unfold takeGap
        rw [castInt_succ hnext, if_pos le_rfl, hmax]
      have hd : d = OrdMap.popEntries takeGap l g := OrdMap.popEntries_cons_some hstep ..
      have hle : g ≤ d.2 := hd ▸ le_popEntries l g
      have hleft : ∀ x, (x ∈ ids ∧ d.2 < x) ↔ (x ∈ l.map Prod.fst ∧ d.2 < x) := by
        intro x
        refine and_congr_left fun hx => ?_
        rw [show ids = g :: l.map Prod.fst from rfl, List.mem_cons]
        exact or_iff_right (ne_of_gt (lt_of_le_of_lt hle hx))
      have hbase : ∀ m, IsWatermark n ids m ↔ IsWatermark g (l.map Prod.fst) m := fun m => IsWatermark.cons_succ hnext
      simp only [hbase, hleft]
      rw [hd]
      refine (ih hs.2 hs.1).trans (forall_congr' fun m => forall_congr' fun y => imp_congr_right fun hm => ?_)
      exact imp_congr_left (IsNextAbove.cons_of_le hm.le).symm
    · -- the least id leaves a hole: the watermark is the base, and the loop has to stop here
      have hw : IsWatermark n ids n := IsWatermark.cons_hole hng hnext habove
      have hleast : IsNextAbove n ids g := IsNextAbove.head hng habove
      have hcond : (∀ m y, IsWatermark n ids m → IsNextAbove m ids y → Ahead m y) ↔ Ahead n g := by
        refine ⟨fun h => h n g hw hleast, fun h m y hm hy => ?_⟩
        obtain rfl := hw.unique hm
        rw [hy.unique hleast]
        exact h
      rw [hcond, ahead_iff]
      by_cases hcast : castInt (g - n) ≤ 1
      · -- it is taken all the same
        have hstep : takeGap n g = some g := by
          unfold takeGap
          rw [if_pos hcast, hmax]
        have hd : d = OrdMap.popEntries takeGap l g := OrdMap.popEntries_cons_some hstep ..
        refine ⟨fun h => ?_, fun h => absurd hcast (not_le.2 h)⟩
        have hle := le_popEntries l g
        rw [← hd, h.1.unique hw] at hle
        exact absurd hng (not_lt.2 hle)
      · have hstep : takeGap n g = none := by
          unfold takeGap
          rw [if_neg hcast]
        have hd : d = ((g, u) :: l, n) := OrdMap.popEntries_cons_none hstep ..
        refine ⟨fun _ => not_le.1 hcast, fun _ => ?_⟩
        rw [hd]
        refine ⟨hw, fun x => ?_⟩
        simp only [ids]
        constructor
        · intro hx
          exact ⟨List.mem_map.2 ⟨_, hx, rfl⟩, hl _ hx⟩
        · rintro ⟨hx, -⟩
          obtain ⟨⟨y, ⟨⟩⟩, hy, rfl⟩ := List.mem_map.1 hx
          exact hy

/-! ### One call -/

/-- The record holds the watermark of the ids added above the base, and the ids beyond it. -/
structure Exact (r : PidRecord) (b : UInt64) (ids : List UInt64) : Prop where
  watermark : IsWatermark b ids r.lastPid
  gaps : ∀ x, r.gapPidSet.contains x = true ↔ x ∈ ids ∧ r.lastPid < x
  beyond : ∀ x, r.gapPidSet.contains x = true → r.lastPid.toNat + 2 ≤ x.toNat

/-- The last id, if it is above the watermark, and the least id above the watermark are ahead of it. -/
def InStep (b : UInt64) (ids : List UInt64) : Prop :=
  ∀ m, IsWatermark b ids m →
    (∀ p, ids.getLast? = some p → m < p → Ahead m p) ∧ ∀ g, IsNextAbove m ids g → Ahead m g

theorem Exact.of_gaps {r : PidRecord} {b : UInt64} {ids : List UInt64} (hw : IsWatermark b ids r.lastPid)
    (hg : ∀ x, r.gapPidSet.contains x = true ↔ x ∈ ids ∧ r.lastPid < x) : r.Exact b ids := by
  refine ⟨hw, hg, fun x hx => ?_⟩
  obtain ⟨hmem, hlt⟩ := (hg x).1 hx
  have hsucc := toNat_succ_of_lt hlt
  have hne : x.toNat ≠ (r.lastPid + 1).toNat := by
    intro heq
    rw [UInt64.toNat_inj] at heq
    exact hw.succ_notMem hlt (heq ▸ hmem)
  rw [UInt64.lt_iff_toNat_lt] at hlt
  omega

theorem exact_reset (b : UInt64) : ({ lastPid := b, gapPidSet := ∅ } : PidRecord).Exact b [] := by
  refine .of_gaps (IsWatermark.of_forall_le fun x hx => absurd hx List.not_mem_nil) fun x => ?_
  simp [OrdMap.contains]

section Step

variable {r : PidRecord} {b p : UInt64} {ids : List UInt64} (h : r.Exact b ids) (hb : b < p) (hp : p ∉ ids)

include h

/-- Above the watermark, the ids are those of the gap set and the new one. -/
private theorem mem_append_iff {x : UInt64} (hx : r.lastPid < x) :
    x ∈ ids ++ [p] ↔ x = p ∨ x ∈ r.gapPidSet.entries.map Prod.fst := by
  rw [List.mem_append, List.mem_singleton, or_comm]
  refine or_congr_right ?_
  constructor
  · intro hmem
    exact List.mem_map.2 ⟨_, OrdMap.mem_unit.1 ((h.gaps x).2 ⟨hmem, hx⟩), rfl⟩
  · intro hmem
    obtain ⟨⟨y, ⟨⟩⟩, hy, rfl⟩ := List.mem_map.1 hmem
    exact ((h.gaps y).1 (OrdMap.mem_unit.2 hy)).1

private theorem fills_append : Fills b (ids ++ [p]) r.lastPid :=
  fun x hx hx' => List.mem_append_left _ (h.watermark.1 x hx hx')

include hb hp

/-- The id that follows the watermark: the loop over the gaps decides. -/
private theorem exact_addPid_next (hnext : p.toNat = r.lastPid.toNat + 1) :
    (r.addPid p).2.Exact b (ids ++ [p]) ↔ InStep b (ids ++ [p]) := by
  have hlt : r.lastPid < p := h.watermark.lt_of_notMem hb hp
  have hsorted := r.gapPidSet.sorted
  have habove : ∀ e ∈ r.gapPidSet.entries, p < e.1 := by
    intro e he
    have := h.beyond e.1 (OrdMap.mem_unit.2 he)
    exact UInt64.lt_iff_toNat_lt.2 (by omega)
  have hiff := popEntries_exact_iff hsorted habove
  -- above `p` only the gaps are left
  have hids : ∀ x, p < x → (x ∈ ids ++ [p] ↔ x ∈ r.gapPidSet.entries.map Prod.fst) := by
    intro x hx
    rw [mem_append_iff h (lt_trans hlt hx)]
    exact or_iff_right (ne_of_gt hx)
  have hfill : Fills b (ids ++ [p]) p := by
    intro x hx hx'
    rcases le_or_gt x r.lastPid with hxl | hxl
    · exact fills_append h x hx hxl
    · have heq : x = p := by
        rw [UInt64.lt_iff_toNat_lt] at hxl
        rw [UInt64.le_iff_toNat_le] at hx'
        rw [← UInt64.toNat_inj]
        omega
      simp [heq]
  have hbase : ∀ m, IsWatermark b (ids ++ [p]) m ↔ IsWatermark p (r.gapPidSet.entries.map Prod.fst) m :=
    fun m => IsWatermark.rebase (le_of_lt hb) hfill hids
  have hr : (r.addPid p).2 = ⟨(r.gapPidSet.popWhile takeGap p).2, (r.gapPidSet.popWhile takeGap p).1⟩ := by
    unfold addPid
    rw [castInt_succ hnext, if_neg (lt_irrefl _), max_eq_left (le_of_lt hlt)]
  have hle : p ≤ (OrdMap.popEntries takeGap r.gapPidSet.entries p).2 := le_popEntries ..
  have hexact : (r.addPid p).2.Exact b (ids ++ [p]) ↔
      IsWatermark p (r.gapPidSet.entries.map Prod.fst) (OrdMap.popEntries takeGap r.gapPidSet.entries p).2 ∧
      ∀ x, (x, ()) ∈ (OrdMap.popEntries takeGap r.gapPidSet.entries p).1 ↔
        x ∈ r.gapPidSet.entries.map Prod.fst ∧ (OrdMap.popEntries takeGap r.gapPidSet.entries p).2 < x := by
    rw [hr]
    constructor
    · rintro ⟨hw, hg, -⟩
      refine ⟨(hbase _).1 hw, fun x => ?_⟩
      exact OrdMap.mem_unit.symm.trans ((hg x).trans (and_congr_left fun hx => hids x (lt_of_le_of_lt hle hx)))
    · rintro ⟨hw, hg⟩
      refine .of_gaps ((hbase _).2 hw) fun x => ?_
      exact OrdMap.mem_unit.trans ((hg x).trans (and_congr_left fun hx => (hids x (lt_of_le_of_lt hle hx)).symm))
  refine hexact.trans (hiff.trans ?_)
  have hnextAbove : ∀ m g, p ≤ m → (IsNextAbove m (ids ++ [p]) g ↔
      IsNextAbove m (r.gapPidSet.entries.map Prod.fst) g) := by
    intro m g hm
    unfold IsNextAbove
    rw [show {x | x ∈ ids ++ [p] ∧ m < x} = {x | x ∈ r.gapPidSet.entries.map Prod.fst ∧ m < x} from
      Set.ext fun x => and_congr_left fun hx => hids x (lt_of_le_of_lt hm hx)]
  constructor
  · intro hall m hm
    have hm' := (hbase m).1 hm
    refine ⟨fun p' hp' hlt' => ?_, fun g hg => hall m g hm' ((hnextAbove m g hm'.le).1 hg)⟩
    rw [List.getLast?_concat] at hp'
    cases hp'
    exact absurd hlt' (not_lt.2 hm'.le)
  · intro hstep m g hm hg
    exact (hstep m ((hbase m).2 hm)).2 g ((hnextAbove m g hm.le).2 hg)

/-- An id that leaves a hole: its own test decides, the least id above the watermark being tested before or now. -/
private theorem exact_addPid_hole (hstep : InStep b ids) (hhole : p.toNat ≠ r.lastPid.toNat + 1) :
    (r.addPid p).2.Exact b (ids ++ [p]) ↔ InStep b (ids ++ [p]) := by
  have hlt : r.lastPid < p := h.watermark.lt_of_notMem hb hp
  have hsucc := toNat_succ_of_lt hlt
  have hw : IsWatermark b (ids ++ [p]) r.lastPid := by
    refine (IsWatermark.rebase h.watermark.le (fills_append h) fun _ _ => Iff.rfl).2
      (IsWatermark.of_succ_notMem hlt ?_)
    intro hmem
    rcases List.mem_append.1 hmem with hmem | hmem
    · exact h.watermark.succ_notMem hlt hmem
    · rw [List.mem_singleton, ← UInt64.toNat_inj] at hmem
      omega
  have hcond : InStep b (ids ++ [p]) ↔ Ahead r.lastPid p := by
    constructor
    · intro hin
      exact (hin _ hw).1 p List.getLast?_concat hlt
    · intro hahead m hm
      obtain rfl := hw.unique hm
      refine ⟨fun p' hp' _ => ?_, fun g hg => ?_⟩
      · rw [List.getLast?_concat] at hp'
        cases hp'
        exact hahead
      · rcases List.mem_append.1 hg.1.1 with hmem | hmem
        · -- the least id was there before
          refine (hstep _ h.watermark).2 g ⟨⟨hmem, hg.1.2⟩, ?_⟩
          rintro x ⟨hx, hx'⟩
          exact hg.2 ⟨List.mem_append_left _ hx, hx'⟩
        · rw [List.mem_singleton.1 hmem]
          exact hahead
  rw [hcond, ahead_iff]
  by_cases hcast : 1 < castInt (p - r.lastPid)
  · have hr : (r.addPid p).2 = { r with gapPidSet := r.gapPidSet.insert p () } := by
      unfold addPid
      rw [if_pos hcast, if_pos hlt]
    refine ⟨fun _ => hcast, fun _ => ?_⟩
    rw [hr]
    refine .of_gaps hw fun x => ?_
    simp only [OrdMap.contains, OrdMap.find?_insert]
    by_cases hx : x = p
    · subst hx
      simp [hlt]
    · rw [if_neg hx]
      refine (h.gaps x).trans (and_congr_left fun _ => ?_)
      simp [hx]
  · -- the watermark jumps over the hole
    have hle : p ≤ (r.addPid p).2.lastPid := by
      unfold addPid
      rw [if_neg hcast]
      exact le_trans (le_max_left ..) (le_popEntries ..)
    refine ⟨fun hexact => ?_, fun hc => absurd hc hcast⟩
    rw [hexact.watermark.unique hw] at hle
    exact absurd hlt (not_lt.2 hle)

theorem exact_addPid_iff (hstep : InStep b ids) :
    (r.addPid p).2.Exact b (ids ++ [p]) ↔ InStep b (ids ++ [p]) := by
  by_cases hnext : p.toNat = r.lastPid.toNat + 1
  · exact exact_addPid_next h hb hp hnext
  · exact exact_addPid_hole h hb hp hstep hnext

end Step

/-- Two records that are exact for the same ids are equal. -/
theorem Exact.eq {r r' : PidRecord} {b : UInt64} {ids ids' : List UInt64} (h : r.Exact b ids) (h' : r'.Exact b ids')
    (hids : ∀ x, x ∈ ids ↔ x ∈ ids') : r = r' := by
  have hlast : r.lastPid = r'.lastPid := by
    refine h.watermark.unique ?_
    have hfill : Fills b ids' b := fun _ hx hx' => absurd hx (not_lt.2 hx')
    exact (IsWatermark.rebase le_rfl hfill fun x _ => (hids x).symm).1 h'.watermark
  obtain ⟨n, gaps⟩ := r
  obtain ⟨n', gaps'⟩ := r'
  simp only at hlast
  subst hlast
  congr 1
  refine OrdMap.ext_unit fun x => ?_
  rw [Bool.eq_iff_iff]
  exact (h.gaps x).trans ((and_congr_left fun _ => hids x).trans (h'.gaps x).symm)

/-- Ids within `2 ^ 31` of the base pass every test. -/
theorem inStep_of_near {b : UInt64} {ids : List UInt64} (h : ∀ x ∈ ids, x.toNat < b.toNat + 2 ^ 31) :
    InStep b ids := by
  intro m hm
  have hahead : ∀ g ∈ ids, m < g → Ahead m g := by
    intro g hg hlt
    have hsucc := toNat_succ_of_lt hlt
    have hne : g.toNat ≠ (m + 1).toNat := by
      intro heq
      rw [UInt64.toNat_inj] at heq
      exact hm.succ_notMem hlt (heq ▸ hg)
    have hbm := UInt64.le_iff_toNat_le.1 hm.le
    have hmg := UInt64.lt_iff_toNat_lt.1 hlt
    have hnear := h g hg
    unfold Ahead
    rw [UInt64.toNat_sub_of_le _ _ (le_of_lt hlt), Nat.mod_eq_of_lt (by omega)]
    omega
  exact ⟨fun p hp hlt => hahead p (List.mem_of_getLast? hp) hlt, fun g hg => hahead g hg.1.1 hg.1.2⟩

end PidRecord

/-! ### Any calls -/

namespace PidTracker

/-- `addPid` -/
def addPid (t : PidTracker) (pid qid : UInt64) : PidTracker :=
  let r := t.addPidDup pid qid
  if r.1 then r.2 else r.2.addPidMain pid

/-- Calls of `addPid`, one after the other. -/
def addPids (t : PidTracker) (calls : List (UInt64 × UInt64)) : PidTracker :=
  calls.foldl (fun t k => t.addPid k.1 k.2) t

variable {t : PidTracker}

private theorem addPid_of_not_duplicate {pid qid : UInt64} (h : t.isDuplicate pid qid = false) :
    t.addPid pid qid = t.addPidMain pid := by
  unfold addPid addPidDup
  simp [h]

/-- Pairs that are no duplicates go to the main record, and stay no duplicates. -/
private theorem addPids_of_not_duplicate {calls : List (UInt64 × UInt64)}
    (h : ∀ k ∈ calls, t.isDuplicate k.1 k.2 = false) :
    (t.addPids calls).mainRecord = (calls.map Prod.fst).foldl (fun r p => (r.addPid p).2) t.mainRecord := by
  unfold addPids
  induction calls generalizing t with
  | nil => rfl
  | cons k calls ih =>
    rw [List.foldl_cons, addPid_of_not_duplicate (h k (by simp)), ih, List.map_cons, List.foldl_cons]
    · rfl
    · intro k' hk'
      rw [isDuplicate_addPidMain]
      exact h k' (List.mem_cons_of_mem _ hk')

/-- The run lemma: by induction on the calls, the last one split off. -/
private theorem exact_foldl_iff {b : UInt64} {ids : List UInt64} (hnodup : ids.Nodup) (hgt : ∀ p ∈ ids, b < p) :
    (∀ done, done <+: ids →
      (done.foldl (fun r p => (PidRecord.addPid r p).2) { lastPid := b, gapPidSet := ∅ }).Exact b done) ↔
    ∀ done, done <+: ids → PidRecord.InStep b done := by
  induction ids using List.reverseRecOn with
  | nil =>
    refine ⟨fun _ done hdone => ?_, fun _ done hdone => ?_⟩
    · rw [List.prefix_nil.1 hdone]
      exact PidRecord.inStep_of_near fun x hx => absurd hx List.not_mem_nil
    · rw [List.prefix_nil.1 hdone]
      exact PidRecord.exact_reset b
  | append_singleton ids p ih =>
    obtain ⟨hnodup', -, hp⟩ := List.nodup_append.1 hnodup
    have ih := ih hnodup' fun p hp => hgt p (List.mem_append_left _ hp)
    have hnew : p ∉ ids := fun hmem => hp p hmem p (by simp) rfl
    have hb : b < p := hgt p (by simp)
    have hsplit : ∀ P : List UInt64 → Prop,
        (∀ done, done <+: ids ++ [p] → P done) ↔ (∀ done, done <+: ids → P done) ∧ P (ids ++ [p]) := by
      intro P
      constructor
      · intro h
        exact ⟨fun done hdone => h done (hdone.trans (List.prefix_append ..)), h _ List.prefix_rfl⟩
      · rintro ⟨h, hlast⟩ done hdone
        rcases List.prefix_concat_iff.1 hdone with rfl | hdone
        · exact hlast
        · exact h done hdone
    rw [hsplit, hsplit, ← ih]
    refine and_congr_right fun hexact => ?_
    rw [List.foldl_concat]
    exact PidRecord.exact_addPid_iff (hexact ids List.prefix_rfl) hb hnew (ih.1 hexact ids List.prefix_rfl)

/-- After each of the calls the record is exact, if and only if after each of them the two differences that are tested
are ahead of the watermark.  Then the record depends on the set of the ids only. -/
theorem addPid_exact (t : PidTracker) (b : UInt64) (calls : List (UInt64 × UInt64))
    (hnodup : (calls.map Prod.fst).Nodup) (hgt : ∀ k ∈ calls, b < k.1)
    (hdup : ∀ k ∈ calls, t.isDuplicate k.1 k.2 = false) :
    ((∀ done, done <+: calls → ((t.reset b).addPids done).mainRecord.Exact b (done.map Prod.fst)) ↔
      ∀ done, done <+: calls.map Prod.fst → PidRecord.InStep b done) ∧
    ∀ calls' : List (UInt64 × UInt64), (calls'.map Prod.fst).Perm (calls.map Prod.fst) →
      (∀ k ∈ calls', t.isDuplicate k.1 k.2 = false) →
      (∀ done, done <+: calls.map Prod.fst → PidRecord.InStep b done) →
      (∀ done, done <+: calls'.map Prod.fst → PidRecord.InStep b done) →
      ((t.reset b).addPids calls').mainRecord = ((t.reset b).addPids calls).mainRecord := by
  have hids : ∀ p ∈ calls.map Prod.fst, b < p := by
    intro p hp
    obtain ⟨k, hk, rfl⟩ := List.mem_map.1 hp
    exact hgt k hk
  have hrun : ∀ {calls done : List (UInt64 × UInt64)}, (∀ k ∈ calls, t.isDuplicate k.1 k.2 = false) →
      done <+: calls → ((t.reset b).addPids done).mainRecord =
        (done.map Prod.fst).foldl (fun r p => (r.addPid p).2) { lastPid := b, gapPidSet := ∅ } :=
    fun hdup hdone => addPids_of_not_duplicate fun k hk => hdup k (hdone.subset hk)
  refine ⟨?_, fun calls' hperm hdup' hstep hstep' => ?_⟩
  · rw [← exact_foldl_iff hnodup hids]
    constructor
    · intro h done hdone
      obtain ⟨done', hdone', rfl⟩ := List.prefix_map_iff.1 hdone
      rw [← hrun hdup hdone']
      exact h done' hdone'
    · intro h done hdone
      rw [hrun hdup hdone]
      exact h _ (hdone.map _)
  · rw [hrun hdup' List.prefix_rfl, hrun hdup List.prefix_rfl]
    have hexact' := (exact_foldl_iff (hperm.nodup_iff.2 hnodup) fun p hp => hids p (hperm.mem_iff.1 hp)).2 hstep'
    have hexact := (exact_foldl_iff hnodup hids).2 hstep
    exact (hexact' _ List.prefix_rfl).eq (hexact _ List.prefix_rfl) fun x => hperm.mem_iff

theorem addPid_exact_outOfOrder :
    ((({} : PidTracker).reset 0).addPids [(3, 1), (1, 1), (2, 2)]).mainRecord.Exact 0 [3, 1, 2] := by
  refine (addPid_exact {} 0 [(3, 1), (1, 1), (2, 2)] (by decide) (by simp) (fun _ _ => rfl)).1.2
    (fun done hdone => PidRecord.inStep_of_near fun x hx => ?_) _ List.prefix_rfl
  have hx' := hdone.subset hx
  simp only [List.map_cons, List.map_nil, List.mem_cons, List.not_mem_nil, or_false] at hx'
  rcases hx' with rfl | rfl | rfl <;> decide

/-- The id `2 ^ 32` is taken for the successor of the watermark `0`. -/
theorem watermark_passes_hole :
    ¬ ∀ (t : PidTracker) (b : UInt64) (calls : List (UInt64 × UInt64)), (calls.map Prod.fst).Nodup →
      (∀ k ∈ calls, b < k.1) → (∀ k ∈ calls, t.isDuplicate k.1 k.2 = false) →
      ((t.reset b).addPids calls).mainRecord.Exact b (calls.map Prod.fst) := by
  intro hexactly
  have hexact := hexactly {} 0 [(0x100000000, 1)] (by decide) (by simp) (fun _ _ => rfl)
  have hlast : ((({} : PidTracker).reset 0).addPids [(0x100000000, 1)]).mainRecord.lastPid = 0x100000000 := by decide
  have hfill := hexact.watermark.1 1 (by decide) (by rw [hlast]; decide)
  exact absurd hfill (by decide)

end PidTracker

end BdbMsgStore
