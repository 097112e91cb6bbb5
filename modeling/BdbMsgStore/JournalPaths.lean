import BdbMsgStore.AsyncOperationLogger
import BdbMsgStore.Lib.Paths
import Mathlib.Data.List.TakeWhile

/-!
# The directories of the journals

The journal of a queue lies in the directory `jrnl/<bucket>/<name>/` under the base directory of the databases, and
its shards are the files `<name>_s<number>.db` in it; the name of the queue is not escaped.  `destroy` removes the
shards and then deletes the directory with all that is in it (`delete_jrnl_files`).

`destroy_touches_own_iff` says for which names this leaves the directory and the shards of another queue alone.  Two
names whose components stay in their buckets do not interfere exactly if the buckets differ, or the components of
the first do not begin those of the second or of one of its shards.  For names that lead out of their buckets the
components are compared together with the directories that only the other name leaves.
-/

namespace BdbMsgStore

open Paths

/-! ### The names of directories and files -/

/-- `c_str`: the string up to its first NUL. -/
def cStr (str : Bytes) : Bytes := str.takeWhile (· ≠ 0)

/-- A `char`, which is signed, as an operand of 32-bit arithmetic. -/
def charToUInt32 (c : UInt8) : UInt32 := if c < 128 then c.toUInt32 else c.toUInt32 + 0xffffff00

/-- `bHash` -/
def bHash (str : Bytes) : UInt32 := str.foldl (fun h c => 33 * h + charToUInt32 c) 0

def hexDigit (n : UInt32) : UInt8 := if n < 10 then 0x30 + n.toUInt8 else 0x57 + n.toUInt8

/-- A number below 256 in hexadecimal digits, filled with zeros to four places. -/
def hex4 (n : UInt32) : Bytes := [0x30, 0x30, hexDigit (n / 16), hexDigit (n % 16)]

/-- The hash bucket of a queue. -/
def bucket (queueName : Bytes) : UInt32 := bHash (cStr queueName) % 29

/-- `jrnl` -/
def jrnl : Bytes := [0x6a, 0x72, 0x6e, 0x6c]

/-- `getJrnlHashDir` -/
def getJrnlHashDir (queueName : Bytes) : Bytes :=
  jrnl ++ slash :: (hex4 (bucket queueName) ++ slash :: (queueName ++ [slash]))

/-- `getJrnlDir` -/
def getJrnlDir (queueName : Bytes) : Bytes := getJrnlHashDir (cStr queueName)

/-- The number of a shard in decimal digits, filled with zeros to three places. -/
def decimal3 (sid : Nat) : Bytes := ((Nat.toDigits 10 sid).map fun c => UInt8.ofNat c.toNat).leftpad 3 0x30

/-- `_s<number>.db` -/
def shardSuffix (sid : Nat) : Bytes := [0x5f, 0x73] ++ decimal3 sid ++ [0x2e, 0x64, 0x62]

/-- `getSubDbName` -/
def getSubDbName (journalName : Bytes) (sid : Nat) : Bytes := journalName ++ shardSuffix sid

/-- `getSubDbPath` -/
def getSubDbPath (queueName : Bytes) (sid : Nat) : Bytes := getJrnlDir queueName ++ getSubDbName queueName sid

/-- `getJournalDirPath`, resolved; `base` is the base directory of the databases. -/
def journalDir (base : Path) (queueName : Bytes) : Path := resolve base (getJrnlDir queueName)

/-- The file of a shard; the database environment has the base directory as its home. -/
def shardFile (base : Path) (queueName : Bytes) (sid : Nat) : Path := resolve base (cStr (getSubDbPath queueName sid))

/-- What `delete_jrnl_files` removes: the shards, and the directory with all that is in it. -/
def Removed (base : Path) (numJfiles : Nat) (queueName : Bytes) (p : Path) : Prop :=
  journalDir base queueName <+: p ∨ ∃ sid < numJfiles, p = shardFile base queueName sid

/-- Neither the directory nor a shard of the second queue is removed with the first. -/
structure Untouched (base : Path) (numJfiles : Nat) (first second : Bytes) : Prop where
  directory : ¬ Removed base numJfiles first (journalDir base second)
  shards : ∀ sid < numJfiles, ¬ Removed base numJfiles first (shardFile base second sid)

/-! ### Where the names lead -/

/-- The directory of the bucket of a queue. -/
def bucketDir (base : Path) (queueName : Bytes) : Path := base ++ [jrnl, hex4 (bucket queueName)]

/-- The name of a shard within the directory of its journal. -/
def shardName (queueName : Bytes) (sid : Nat) : Bytes := cStr (getSubDbName queueName sid)

/-- The name does not lead out of its bucket. -/
def Stays (queueName : Bytes) : Prop := (reach (cStr queueName)).up = 0

/-- The components of the journal's directory below its bucket. -/
def components (queueName : Bytes) : Path := (reach (cStr queueName)).down

/-- The components of a shard below its bucket. -/
def shardComponents (queueName : Bytes) (sid : Nat) : Path :=
  components queueName ++ (reach (shardName queueName sid)).down

@[simp] theorem cStr_cStr (str : Bytes) : cStr (cStr str) = cStr str := by
  unfold cStr
  exact List.takeWhile_idem ..

theorem bucket_cStr (queueName : Bytes) : bucket (cStr queueName) = bucket queueName := by
  unfold bucket
  rw [cStr_cStr]

private theorem bucket_lt (queueName : Bytes) : (bucket queueName).toNat < 29 := by
  unfold bucket
  rw [UInt32.toNat_mod]
  exact Nat.mod_lt _ (by decide)

private theorem hex4_spec : ∀ n : Fin 29, slash ∉ hex4 (UInt32.ofNat n) ∧ (0 : UInt8) ∉ hex4 (UInt32.ofNat n) ∧
    ∀ n' : Fin 29, hex4 (UInt32.ofNat n) = hex4 (UInt32.ofNat n') → n = n' := by
  decide

private theorem hex4_bucket (queueName : Bytes) :
    slash ∉ hex4 (bucket queueName) ∧ (0 : UInt8) ∉ hex4 (bucket queueName) := by
  have h := hex4_spec ⟨(bucket queueName).toNat, bucket_lt queueName⟩
  simp only [UInt32.ofNat_toNat] at h
  exact ⟨h.1, h.2.1⟩

private theorem hex4_inj {a b : Bytes} (h : hex4 (bucket a) = hex4 (bucket b)) : bucket a = bucket b := by
  have hinj := (hex4_spec ⟨(bucket a).toNat, bucket_lt a⟩).2.2 ⟨(bucket b).toNat, bucket_lt b⟩
  simp only [UInt32.ofNat_toNat, Fin.mk.injEq] at hinj
  exact UInt32.toNat_inj.1 (hinj h)

private theorem plain_hex4 (n : UInt32) : Plain (hex4 n) := by
  unfold Plain hex4
  simp

theorem journalDir_eq (base : Path) (queueName : Bytes) :
    journalDir base queueName = (reach (cStr queueName)).apply (bucketDir base queueName) := by
  have hjrnl : resolve base jrnl = base ++ [jrnl] := by
    rw [resolve_of_notMem (by decide), enter_plain (by decide)]
  have hhex : resolve (base ++ [jrnl]) (hex4 (bucket queueName)) = bucketDir base queueName := by
    rw [resolve_of_notMem (hex4_bucket queueName).1, enter_plain (plain_hex4 _)]
    simp [bucketDir]
  unfold journalDir getJrnlDir getJrnlHashDir
  rw [bucket_cStr, resolve_append, hjrnl, resolve_append, hhex, resolve_append, resolve_nil, resolve_eq]

private theorem zero_notMem_getJrnlDir (queueName : Bytes) : (0 : UInt8) ∉ getJrnlDir queueName := by
  have hname : (0 : UInt8) ∉ cStr queueName := by
    intro h
    have := List.mem_takeWhile_imp h
    simp at this
  unfold getJrnlDir getJrnlHashDir
  rw [bucket_cStr]
  simp only [List.mem_append, List.mem_cons, List.not_mem_nil, or_false, not_or]
  exact ⟨by decide, by decide, (hex4_bucket queueName).2, by decide, hname, by decide⟩

theorem shardFile_eq (base : Path) (queueName : Bytes) (sid : Nat) :
    shardFile base queueName sid = (reach (shardName queueName sid)).apply (journalDir base queueName) := by
  have hstr : cStr (getSubDbPath queueName sid) = getJrnlDir queueName ++ shardName queueName sid := by
    unfold getSubDbPath shardName cStr
    rw [List.takeWhile_append_of_pos]
    intro c hc
    have hne : c ≠ 0 := fun h => zero_notMem_getJrnlDir queueName (h ▸ hc)
    simpa using hne
  obtain ⟨dir, hdir⟩ : ∃ dir, getJrnlDir queueName = dir ++ [slash] :=
    ⟨jrnl ++ slash :: (hex4 (bucket (cStr queueName)) ++ slash :: cStr queueName), by
      simp [getJrnlDir, getJrnlHashDir]⟩
  have hres : resolve base (getJrnlDir queueName) = resolve base dir := by
    rw [hdir, resolve_append, resolve_nil]
  unfold shardFile
  rw [hstr, ← resolve_eq]
  unfold journalDir
  rw [hres, hdir, List.append_assoc, List.singleton_append, resolve_append]

/-! ### Names that stay in their bucket -/

private theorem mem_decimal3 {sid : Nat} {c : UInt8} (h : c ∈ decimal3 sid) : 0x30 ≤ c.toNat ∧ c.toNat ≤ 0x39 := by
  unfold decimal3 List.leftpad at h
  rcases List.mem_append.1 h with h | h
  · rw [List.eq_of_mem_replicate h]
    decide
  · obtain ⟨d, hd, rfl⟩ := List.mem_map.1 h
    have hdigit := Nat.isDigit_of_mem_toDigits (by decide) (by decide) hd
    rw [Char.isDigit_iff_toNat] at hdigit
    rw [UInt8.toNat_ofNat']
    change 0x30 ≤ d.toNat ∧ d.toNat ≤ 0x39 at hdigit
    omega

private theorem notMem_shardSuffix {sid : Nat} {c : UInt8} (h : c.toNat < 0x2e ∨ c = slash) :
    c ∉ shardSuffix sid := by
  intro hmem
  unfold shardSuffix at hmem
  simp only [List.mem_append, List.mem_cons, List.not_mem_nil, or_false] at hmem
  rcases hmem with ((rfl | rfl) | hmem) | rfl | rfl | rfl
  · revert h; decide
  · revert h; decide
  · have hdigit := mem_decimal3 hmem
    rcases h with h | rfl
    · omega
    · revert hdigit; decide
  · revert h; decide
  · revert h; decide
  · revert h; decide

private theorem plain_append_shardSuffix (sid : Nat) (c : Component) : Plain (c ++ shardSuffix sid) := by
  have hmem : (0x5f : UInt8) ∈ c ++ shardSuffix sid := by simp [shardSuffix]
  refine ⟨?_, ?_, ?_⟩
  · intro h
    rw [h] at hmem
    exact absurd hmem (by decide)
  · intro h
    rw [h] at hmem
    exact absurd hmem (by decide)
  · intro h
    rw [h] at hmem
    exact absurd hmem (by decide)

private theorem cStr_append {a b : Bytes} (hb : (0 : UInt8) ∉ b) :
    cStr (a ++ b) = if (0 : UInt8) ∈ a then cStr a else a ++ b := by
  have hkeep : ∀ {l : Bytes}, (0 : UInt8) ∉ l → cStr l = l := by
    intro l hl
    refine List.takeWhile_eq_self_iff.2 fun c hc => ?_
    have hne : c ≠ 0 := fun h => hl (h ▸ hc)
    simpa using hne
  induction a with
  | nil => simpa using hkeep hb
  | cons c a ih =>
    by_cases hc : c = 0
    · subst hc
      simp [cStr]
    · have hcons : ∀ l : Bytes, cStr (c :: l) = c :: cStr l := fun l => by simp [cStr, hc]
      rw [List.cons_append, hcons, ih, hcons]
      by_cases ha : (0 : UInt8) ∈ a
      · rw [if_pos ha, if_pos (List.mem_cons_of_mem _ ha)]
      · rw [if_neg ha, if_neg (by simp [ha, Ne.symm hc])]

/-- A shard lies in the directory of its journal. -/
private theorem up_shardName {queueName : Bytes} (h : Stays queueName) (sid : Nat) :
    (reach (shardName queueName sid)).up = 0 := by
  have hzero : (0 : UInt8) ∉ shardSuffix sid := notMem_shardSuffix (Or.inl (by decide))
  unfold shardName getSubDbName
  rw [cStr_append hzero]
  split
  · exact h
  · rename_i hname
    have hself : cStr queueName = queueName := by
      have := cStr_append (a := queueName) (b := []) List.not_mem_nil
      rw [List.append_nil, if_neg hname] at this
      exact this
    refine up_reach_append (notMem_shardSuffix (Or.inr rfl)) (plain_append_shardSuffix sid) ?_
    unfold Stays at h
    rw [hself] at h
    exact h

theorem journalDir_of_stays {queueName : Bytes} (h : Stays queueName) (base : Path) :
    journalDir base queueName = bucketDir base queueName ++ components queueName := by
  rw [journalDir_eq, Reach.apply_of_up h]
  rfl

theorem shardFile_of_stays {queueName : Bytes} (h : Stays queueName) (base : Path) (sid : Nat) :
    shardFile base queueName sid = bucketDir base queueName ++ shardComponents queueName sid := by
  rw [shardFile_eq, Reach.apply_of_up (up_shardName h sid), journalDir_of_stays h, List.append_assoc]
  rfl

/-- Below the base directory, two places are told apart by bucket and components. -/
private theorem prefix_bucketDir {base : Path} {a b : Bytes} {p q : Path} :
    bucketDir base a ++ p <+: bucketDir base b ++ q ↔ bucket a = bucket b ∧ p <+: q := by
  unfold bucketDir
  simp only [List.append_assoc, List.prefix_append_right_inj, List.cons_append, List.nil_append,
    List.cons_prefix_cons, true_and]
  refine and_congr_left fun _ => ⟨hex4_inj, fun h => by rw [h]⟩

/-! ### What a destruction leaves alone -/

/-- The buckets differ, or the components of the first name do not begin those of the second or of its shards. -/
def Apart (numJfiles : Nat) (first second : Bytes) : Prop :=
  bucket first = bucket second → ¬ components first <+: components second ∧
    ∀ sid < numJfiles, ¬ components first <+: shardComponents second sid

/-- Where a shard lies, seen from the bucket of its queue. -/
def shardReach (queueName : Bytes) (sid : Nat) : Reach := reach (cStr queueName ++ slash :: shardName queueName sid)

section

variable (base : Path) (numJfiles : Nat) (first second : Bytes) (r s : Reach)

/-- The components of `r`, from the bucket of the first name, begin those of `s`, from the bucket of the second, when
both are seen from the lowest directory that neither of them leaves. -/
def Begins : Prop :=
  r.seenFrom (r.levels s (bucketDir base first)) (bucketDir base first) <+:
    s.seenFrom (r.levels s (bucketDir base first)) (bucketDir base second)

/-- The components are the same. -/
def Meets : Prop :=
  r.seenFrom (r.levels s (bucketDir base first)) (bucketDir base first) =
    s.seenFrom (r.levels s (bucketDir base first)) (bucketDir base second)

/-- For names that lead out of their buckets: the components of the first name do not begin those of the second or of
its shards, and its shards, which may lie outside its directory, have other components. -/
def ApartFrom : Prop :=
  ¬ Begins base first second (reach (cStr first)) (reach (cStr second)) ∧
    (∀ sid < numJfiles, ¬ Meets base first second (shardReach first sid) (reach (cStr second))) ∧
    ∀ sid < numJfiles, ¬ Begins base first second (reach (cStr first)) (shardReach second sid) ∧
      ∀ sid' < numJfiles, ¬ Meets base first second (shardReach first sid') (shardReach second sid)

private theorem bucketDir_eq (queueName : Bytes) :
    bucketDir base queueName = base ++ [jrnl] ++ [hex4 (bucket queueName)] := by
  simp [bucketDir]

private theorem begins_iff :
    Begins base first second r s ↔ r.apply (bucketDir base first) <+: s.apply (bucketDir base second) := by
  unfold Begins
  rw [bucketDir_eq, bucketDir_eq, Reach.apply_prefix_apply_iff]

private theorem meets_iff :
    Meets base first second r s ↔ r.apply (bucketDir base first) = s.apply (bucketDir base second) := by
  unfold Meets
  rw [bucketDir_eq, bucketDir_eq, Reach.apply_eq_apply_iff]

private theorem apply_shardReach (queueName : Bytes) (sid : Nat) :
    (shardReach queueName sid).apply (bucketDir base queueName) = shardFile base queueName sid := by
  unfold shardReach
  rw [shardFile_eq, journalDir_eq, ← resolve_eq, resolve_append, resolve_eq, resolve_eq]

end

private theorem untouched_iff_apartFrom {base : Path} {numJfiles : Nat} {first second : Bytes} :
    Untouched base numJfiles first second ↔ ApartFrom base numJfiles first second := by
  unfold ApartFrom
  simp only [begins_iff, meets_iff, apply_shardReach, ← journalDir_eq]
  constructor
  · rintro ⟨hdir, hshards⟩
    refine ⟨fun h => hdir (Or.inl h), fun sid hs h => hdir (Or.inr ⟨sid, hs, h.symm⟩), fun sid hs => ?_⟩
    exact ⟨fun h => hshards sid hs (Or.inl h), fun sid' hs' h => hshards sid hs (Or.inr ⟨sid', hs', h.symm⟩)⟩
  · rintro ⟨hdir, hdirShard, hshards⟩
    refine ⟨?_, fun sid hs => ?_⟩
    · rintro (h | ⟨sid, hs, h⟩)
      · exact hdir h
      · exact hdirShard sid hs h.symm
    · rintro (h | ⟨sid', hs', h⟩)
      · exact (hshards sid hs).1 h
      · exact (hshards sid hs).2 sid' hs' h.symm

/-- The shards of a name that stays in its bucket lie in its directory, so deleting the directory is all that
counts. -/
private theorem untouched_iff_apart {base : Path} {numJfiles : Nat} {first second : Bytes} (h₁ : Stays first)
    (h₂ : Stays second) : Untouched base numJfiles first second ↔ Apart numJfiles first second := by
  have hremoved : ∀ p, Removed base numJfiles first p ↔ journalDir base first <+: p := by
    intro p
    refine ⟨?_, Or.inl⟩
    rintro (h | ⟨sid, -, rfl⟩)
    · exact h
    · rw [shardFile_of_stays h₁, journalDir_of_stays h₁, prefix_bucketDir]
      exact ⟨rfl, List.prefix_append ..⟩
  unfold Apart
  constructor
  · rintro ⟨hdir, hshards⟩ hb
    refine ⟨fun h => ?_, fun sid hs h => ?_⟩
    · rw [hremoved, journalDir_of_stays h₁, journalDir_of_stays h₂, prefix_bucketDir] at hdir
      exact hdir ⟨hb, h⟩
    · have hshard := hshards sid hs
      rw [hremoved, journalDir_of_stays h₁, shardFile_of_stays h₂, prefix_bucketDir] at hshard
      exact hshard ⟨hb, h⟩
  · intro hapart
    refine ⟨?_, fun sid hs => ?_⟩
    · rw [hremoved, journalDir_of_stays h₁, journalDir_of_stays h₂, prefix_bucketDir]
      exact fun h => (hapart h.1).1 h.2
    · rw [hremoved, journalDir_of_stays h₁, shardFile_of_stays h₂, prefix_bucketDir]
      exact fun h => (hapart h.1).2 sid hs h.2

/-- A name that is one plain component. -/
def SimpleName (name : Bytes) : Prop := Plain name ∧ slash ∉ name ∧ (0 : UInt8) ∉ name

private theorem reach_simpleName {name : Bytes} (h : SimpleName name) :
    Stays name ∧ components name = [name] := by
  have hself : cStr name = name := by
    have := cStr_append (a := name) (b := []) List.not_mem_nil
    rw [List.append_nil, if_neg h.2.2] at this
    exact this
  have hreach : reach (cStr name) = { down := [name] } := by
    rw [hself, reach_of_notMem h.2.1, Reach.enter_plain h.1]
    rfl
  unfold Stays components
  rw [hreach]
  exact ⟨rfl, rfl⟩

private theorem apart_of_simpleName {first second : Bytes} (h₁ : SimpleName first) (h₂ : SimpleName second)
    (hne : first ≠ second) (numJfiles : Nat) : Apart numJfiles first second := by
  intro _
  unfold shardComponents
  rw [(reach_simpleName h₁).2, (reach_simpleName h₂).2]
  refine ⟨fun h => hne (List.cons_prefix_cons.1 h).1, fun sid _ h => hne ?_⟩
  rw [List.singleton_append] at h
  exact (List.cons_prefix_cons.1 h).1

/-- Destroying the first queue leaves the second alone exactly if the names are apart, and different names that are
single components are. -/
theorem destroy_touches_own_iff (base : Path) (numJfiles : Nat) (first second : Bytes) :
    (Untouched base numJfiles first second ↔
      (Stays first ∧ Stays second → Apart numJfiles first second) ∧
      (¬ (Stays first ∧ Stays second) → ApartFrom base numJfiles first second)) ∧
    (SimpleName first → SimpleName second → first ≠ second → Untouched base numJfiles first second) := by
  constructor
  · by_cases hstay : Stays first ∧ Stays second
    · rw [untouched_iff_apart hstay.1 hstay.2]
      simp [hstay]
    · rw [untouched_iff_apartFrom]
      simp [hstay]
  · intro h₁ h₂ hne
    exact (untouched_iff_apart (reach_simpleName h₁).1 (reach_simpleName h₂).1).2
      (apart_of_simpleName h₁ h₂ hne numJfiles)

/-- The directory of the queue `.` is that of its bucket, which is the bucket of the queue `h` too. -/
theorem dot_queue_deletes_bucket :
    ¬ ∀ (base : Path) (numJfiles : Nat) (first second : Bytes), first ≠ [] → second ≠ [] → first ≠ second →
      Untouched base numJfiles first second := by
  intro hapart
  have huntouched := hapart [] 4 [0x2e] [0x68] (by decide) (by decide) (by decide)
  have hprefix : journalDir [] [0x2e] <+: journalDir [] [0x68] := by decide +kernel
  exact huntouched.directory (Or.inl hprefix)

end BdbMsgStore
