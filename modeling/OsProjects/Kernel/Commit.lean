import OsProjects.Kernel.Param
import OsProjects.Lib.Writes

/-!
# Commit — `commit()` and `recover_from_log()` of `log.c` under crashes

The disk changes one block at a time, by `bwrite`.  The functions below run on the buffer cache
and record their `bwrite`s in order; a crash keeps a prefix of these writes and loses the cache.
-/

namespace OsProjects.Kernel

open Lib Function List

/-- The buffers, the `bwrite`s made so far (oldest first) and `log.lh.block[0..n)`. -/
structure LogRun where
  cache : Disk
  writes : List (Nat × Block)
  lh : List Nat

def memmove (s : LogRun) (dst : Nat) (data : Block) : LogRun :=
  { s with cache := update s.cache dst data }

def bwrite (s : LogRun) (b : Nat) : LogRun := { s with writes := s.writes ++ [(b, s.cache b)] }

/-- `log.lh.n` as the header block stores it; the loops over a negative `int` do nothing. -/
def headN (hb : Block) : Nat := if word hb 0 < 2 ^ 31 then word hb 0 else 0

/-- `read_head`: the block numbers that the header block lists. -/
def readHead (hb : Block) : List Nat := (List.range (headN hb)).map fun i => word hb (i + 1)

/-- The header block after `write_head`: entries past `n` keep their old contents. -/
def packHead (hb : Block) (lh : List Nat) : Block :=
  (List.range lh.length).foldl (fun hb i => setWord hb (i + 1) (lh.getD i 0))
    (setWord hb 0 lh.length)

def writeHead (start : Nat) (s : LogRun) : LogRun :=
  bwrite (memmove s start (packHead (s.cache start) s.lh)) start

/-- Copy the buffer of `src` to the buffer of `dst` and write `dst` to the disk. -/
def copyBlock (s : LogRun) (dst src : Nat) : LogRun := bwrite (memmove s dst (s.cache src)) dst

def writeLog (start : Nat) (s : LogRun) : LogRun :=
  (List.range s.lh.length).foldl
    (fun r tail => copyBlock r (start + tail + 1) (s.lh.getD tail 0)) s

def installTrans (start : Nat) (s : LogRun) : LogRun :=
  (List.range s.lh.length).foldl
    (fun r tail => copyBlock r (s.lh.getD tail 0) (start + tail + 1)) s

def commit (start : Nat) (s : LogRun) : LogRun :=
  if 0 < s.lh.length then
    writeHead start { installTrans start (writeHead start (writeLog start s)) with lh := [] }
  else s

def recoverFromLog (start : Nat) (s : LogRun) : LogRun :=
  writeHead start { installTrans start { s with lh := readHead (s.cache start) } with lh := [] }

/-- The disk after a crash that lets the first `k` writes of `recover_from_log` through. -/
def crashedRecovery (start : Nat) (d : Disk) (k : Nat) : Disk :=
  applyWrites d ((recoverFromLog start ⟨d, [], []⟩).writes.take k)

/-- The disk after a recovery that runs to completion. -/
def recovered (start : Nat) (d : Disk) : Disk :=
  applyWrites d (recoverFromLog start ⟨d, [], []⟩).writes

/-! ## The header block -/

theorem headN_packHead_nil (hb : Block) : headN (packHead hb []) = 0 := by
  have hzero : word (packHead hb []) 0 = 0 :=
    word_setWord_self hb (by decide) (by decide)
  rfl

theorem word_packHead (hb : Block) (lh : List Nat) (hfit : lh.length ≤ LOGSIZE)
    (huint : ∀ b ∈ lh, b < 2 ^ 32) (m : Nat) (hm : m ≤ lh.length) (j : Nat) :
    word ((List.range m).foldl (fun hb i => setWord hb (i + 1) (lh.getD i 0))
      (setWord hb 0 lh.length)) j =
      if j = 0 then lh.length else if j ≤ m then lh.getD (j - 1) 0 else word hb j := by
  simp only [LOGSIZE, MAXOPBLOCKS] at hfit
  induction m with
  | zero =>
    by_cases hj : j = 0
    · subst j
      exact word_setWord_self hb (by decide) (by omega)
    · rw [if_neg hj, if_neg (by omega)]
      exact word_setWord_of_ne hb _ hj
  | succ m ih =>
    rw [range_succ, foldl_append, foldl_cons, foldl_nil]
    by_cases hj : j = m + 1
    · subst j
      have hlt : lh.getD m 0 < 2 ^ 32 := by
        rw [getD_eq_getElem _ _ (by omega)]
        exact huint _ (getElem_mem _)
      rw [word_setWord_self _ (by simp only [NINDIRECT]; omega) hlt, if_neg (by omega),
        if_pos (le_refl _), Nat.add_sub_cancel]
    · rw [word_setWord_of_ne _ _ hj, ih (by omega)]
      by_cases hz : j = 0
      · rw [if_pos hz, if_pos hz]
      · rw [if_neg hz, if_neg hz]
        split
        · rw [if_pos (by omega)]
        · rw [if_neg (by omega)]

theorem readHead_packHead (hb : Block) (lh : List Nat) (hfit : lh.length ≤ LOGSIZE)
    (huint : ∀ b ∈ lh, b < 2 ^ 32) : readHead (packHead hb lh) = lh := by
  have hword := word_packHead hb lh hfit huint lh.length (le_refl _)
  have hn : headN (packHead hb lh) = lh.length := by
    simp only [LOGSIZE, MAXOPBLOCKS] at hfit
    rw [headN, packHead, hword 0, if_pos rfl, if_pos (by omega)]
  apply ext_getElem
  · rw [readHead, length_map, length_range, hn]
  · intro i hi hi'
    simp only [readHead, getElem_map, getElem_range]
    rw [packHead, hword (i + 1), if_neg (by omega), if_pos (by omega), Nat.add_sub_cancel,
      getD_eq_getElem _ _ hi']

theorem writeHead_writes (start : Nat) (s : LogRun) :
    (writeHead start s).writes = s.writes ++ [(start, packHead (s.cache start) s.lh)] := by
  simp only [writeHead, bwrite, memmove, update_self]

variable {b i : Nat}

theorem writeHead_cache_of_ne (start : Nat) (s : LogRun) (h : b ≠ start) :
    (writeHead start s).cache b = s.cache b :=
  update_of_ne h _ _

/-! ## The copy loops -/

/-- A loop of block copies whose sources are never destinations performs the writes that store
at each destination what its source held when the loop began. -/
theorem foldl_copyBlock (dst src : Nat → Nat) (f : Disk) (s : LogRun) (n : Nat)
    (hdisj : ∀ t < n, ∀ u < n, src t ≠ dst u) (hsrc : ∀ t < n, s.cache (src t) = f (dst t)) :
    (List.range n).foldl (fun r t => copyBlock r (dst t) (src t)) s =
      { cache := applyWrites s.cache (writesOf f ((List.range n).map dst))
        writes := s.writes ++ writesOf f ((List.range n).map dst)
        lh := s.lh } := by
  induction n with
  | zero => simp [writesOf]
  | succ n ih =>
    have hread : applyWrites s.cache (writesOf f ((List.range n).map dst)) (src n) =
        f (dst n) := by
      rw [applyWrites_writesOf, if_neg, hsrc n (by omega)]
      intro hmem
      obtain ⟨u, hu, heq⟩ := mem_map.mp hmem
      exact hdisj n (by omega) u (by have := mem_range.mp hu; omega) heq.symm
    rw [range_succ, foldl_append, ih (fun t ht u hu => hdisj t (by omega) u (by omega))
      fun t ht => hsrc t (by omega)]
    simp only [foldl_cons, foldl_nil, copyBlock, memmove, bwrite, hread,
      update_self, map_append, map_cons, map_nil, writesOf_concat,
      applyWrites_append, applyWrites_singleton, append_assoc]

theorem map_getD_range (l : List Nat) : (List.range l.length).map (fun t => l.getD t 0) = l := by
  apply ext_getElem
  · simp
  · intro i hi hi'
    simp only [getElem_map, getElem_range, getD_eq_getElem _ _ hi']

/-! ## Transactions -/

/-- A transaction that `commit()` is about to write: its home blocks lie outside the log area,
and the log has room for it. -/
structure Txn where
  start : Nat
  size : Nat
  lh : List Nat
  nodup : lh.Nodup
  fits : lh.length ≤ LOGSIZE
  room : lh.length < size
  outside : ∀ b ∈ lh, b < start ∨ start + size ≤ b
  uint : ∀ b ∈ lh, b < 2 ^ 32

namespace Txn

/-- A block outside the log area. -/
def Home (t : Txn) (b : Nat) : Prop := b < t.start ∨ t.start + t.size ≤ b

/-- The disk contents once the transaction is installed over `old`. -/
def installed (t : Txn) (old new : Disk) : Disk := fun b => if b ∈ t.lh then new b else old b

/-- The header is empty and the home blocks hold `home`. -/
structure Clean (t : Txn) (home d : Disk) : Prop where
  head : headN (d t.start) = 0
  blocks : ∀ b, t.Home b → d b = home b

/-- The header lists the transaction, the log blocks hold its contents, and the home blocks
outside the transaction are as before it; those inside it may be in any state. -/
structure Logged (t : Txn) (old new d : Disk) : Prop where
  head : readHead (d t.start) = t.lh
  copies : ∀ i < t.lh.length, d (t.start + i + 1) = new (t.lh.getD i 0)
  others : ∀ b, t.Home b → b ∉ t.lh → d b = old b

theorem getD_mem (t : Txn) (hi : i < t.lh.length) : t.lh.getD i 0 ∈ t.lh := by
  rw [getD_eq_getElem _ _ hi]
  exact getElem_mem _

theorem start_not_mem (t : Txn) : t.start ∉ t.lh := fun hmem => by
  have hout := t.outside _ hmem
  have hroom := t.room
  omega

theorem ne_start_of_home (t : Txn) (hb : t.Home b) : b ≠ t.start := by
  have hroom := t.room
  unfold Home at hb
  omega

theorem copy_ne_home (t : Txn) (hi : i < t.lh.length) (hb : t.Home b) : t.start + i + 1 ≠ b := by
  have hroom := t.room
  unfold Home at hb
  omega

/-- `install_trans` writes every home block of the transaction from its copy in the log. -/
theorem installTrans_eq (t : Txn) (new : Disk) (s : LogRun) (hlh : s.lh = t.lh)
    (hcopies : ∀ i < t.lh.length, s.cache (t.start + i + 1) = new (t.lh.getD i 0)) :
    installTrans t.start s =
      { cache := applyWrites s.cache (writesOf new t.lh)
        writes := s.writes ++ writesOf new t.lh
        lh := s.lh } := by
  unfold installTrans
  rw [hlh, foldl_copyBlock (fun i => t.lh.getD i 0) (fun i => t.start + i + 1) new s _ _ hcopies,
    map_getD_range, hlh]
  intro i hi j hj
  exact t.copy_ne_home hi (t.outside _ (t.getD_mem hj))

/-- The writes of `write_log`: log block `start + i + 1` receives the cached block `lh[i]`. -/
def copyWrites (t : Txn) (cache : Disk) : List (Nat × Block) :=
  writesOf (fun b => cache (t.lh.getD (b - t.start - 1) 0))
    ((List.range t.lh.length).map fun i => t.start + i + 1)

theorem length_copyWrites (t : Txn) (cache : Disk) : (t.copyWrites cache).length = t.lh.length := by
  rw [copyWrites, length_writesOf, length_map, length_range]

theorem applyWrites_copyWrites (t : Txn) (d cache : Disk) (hi : i < t.lh.length) :
    applyWrites d (t.copyWrites cache) (t.start + i + 1) = cache (t.lh.getD i 0) := by
  rw [copyWrites, applyWrites_writesOf, if_pos (mem_map.mpr ⟨i, mem_range.mpr hi, rfl⟩),
    show t.start + i + 1 - t.start - 1 = i by omega]

theorem applyWrites_take_copyWrites (t : Txn) (d cache : Disk) (k : Nat)
    (hb : b = t.start ∨ t.Home b) : applyWrites d ((t.copyWrites cache).take k) b = d b := by
  rw [copyWrites, take_writesOf, applyWrites_writesOf, if_neg]
  intro hmem
  obtain ⟨i, hi, rfl⟩ := mem_map.mp (mem_of_mem_take hmem)
  rcases hb with heq | hhome
  · omega
  · exact t.copy_ne_home (mem_range.mp hi) hhome rfl

theorem writeLog_eq (t : Txn) (cache : Disk) : writeLog t.start ⟨cache, [], t.lh⟩ =
      ⟨applyWrites cache (t.copyWrites cache), t.copyWrites cache, t.lh⟩ := by
  unfold writeLog
  rw [foldl_copyBlock (fun i => t.start + i + 1) (fun i => t.lh.getD i 0)
    (fun b => cache (t.lh.getD (b - t.start - 1) 0))]
  · rfl
  · intro i hi j hj
    exact (t.copy_ne_home hj (t.outside _ (t.getD_mem hi))).symm
  · intro i hi
    rw [show t.start + i + 1 - t.start - 1 = i by omega]

variable {t : Txn} {d home : Disk}

theorem Logged.installPrefix {old new : Disk} (h : t.Logged old new d) (k : Nat) :
    t.Logged old new (applyWrites d (writesOf new (t.lh.take k))) := by
  have hmem : ∀ {b}, b ∈ t.lh.take k → b ∈ t.lh := mem_of_mem_take
  refine ⟨?_, fun i hi => ?_, fun b hb hnot => ?_⟩
  · rw [applyWrites_writesOf, if_neg fun hin => t.start_not_mem (hmem hin), h.head]
  · rw [applyWrites_writesOf, if_neg fun hin => t.copy_ne_home hi (t.outside _ (hmem hin)) rfl,
      h.copies i hi]
  · rw [applyWrites_writesOf, if_neg fun hin => hnot (hmem hin), h.others b hb hnot]

/-- Installing everything and clearing the header ends the transaction, committed. -/
theorem Logged.finish {old new : Disk} (h : t.Logged old new d) (hb : Block) :
    t.Clean (t.installed old new)
      (update (applyWrites d (writesOf new t.lh)) t.start (packHead hb [])) := by
  refine ⟨by rw [update_self, headN_packHead_nil], fun b hhome => ?_⟩
  rw [update_of_ne (t.ne_start_of_home hhome), applyWrites_writesOf, installed]
  by_cases hmem : b ∈ t.lh
  · rw [if_pos hmem, if_pos hmem]
  · rw [if_neg hmem, if_neg hmem, h.others b hhome hmem]

theorem Clean.clearHead (h : t.Clean home d) (hb : Block) :
    t.Clean home (update d t.start (packHead hb [])) := by
  refine ⟨by rw [update_self, headN_packHead_nil], fun b hhome => ?_⟩
  rw [update_of_ne (t.ne_start_of_home hhome), h.blocks b hhome]

/-! ## Recovery -/

theorem Clean.recover_writes (h : t.Clean home d) :
    (recoverFromLog t.start ⟨d, [], []⟩).writes = [(t.start, packHead (d t.start) [])] := by
  have hread : readHead (d t.start) = [] := by rw [readHead, h.head]; rfl
  simp only [recoverFromLog, hread, installTrans, length_nil, range_zero,
    foldl_nil, writeHead_writes, nil_append]

theorem Logged.recover_writes {old new : Disk} (h : t.Logged old new d) :
    ∃ hb, (recoverFromLog t.start ⟨d, [], []⟩).writes =
      writesOf new t.lh ++ [(t.start, packHead hb [])] := by
  refine ⟨applyWrites d (writesOf new t.lh) t.start, ?_⟩
  rw [recoverFromLog, t.installTrans_eq new _ h.head h.copies, writeHead_writes]
  rfl

theorem Clean.crashedRecovery (h : t.Clean home d) (k : Nat) :
    t.Clean home (Kernel.crashedRecovery t.start d k) := by
  unfold Kernel.crashedRecovery
  rw [h.recover_writes]
  cases k with
  | zero => exact h
  | succ k =>
    rw [take_succ_cons, take_nil]
    exact h.clearHead _

theorem Logged.crashedRecovery {old new : Disk} (h : t.Logged old new d) (k : Nat) :
    t.Logged old new (Kernel.crashedRecovery t.start d k) ∨
      t.Clean (t.installed old new) (Kernel.crashedRecovery t.start d k) := by
  unfold Kernel.crashedRecovery
  obtain ⟨hb, hwrites⟩ := h.recover_writes
  rw [hwrites]
  by_cases hk : k ≤ t.lh.length
  · left
    rw [take_append_of_le_length (by rwa [length_writesOf]), take_writesOf]
    exact h.installPrefix k
  · right
    rw [take_of_length_le (by simp; omega), applyWrites_append]
    exact h.finish hb

theorem Clean.recovered (h : t.Clean home d) : t.Clean home (Kernel.recovered t.start d) := by
  unfold Kernel.recovered
  rw [h.recover_writes]
  exact h.clearHead _

theorem Logged.recovered {old new : Disk} (h : t.Logged old new d) :
    t.Clean (t.installed old new) (Kernel.recovered t.start d) := by
  unfold Kernel.recovered
  obtain ⟨hb, hwrites⟩ := h.recover_writes
  rw [hwrites, applyWrites_append]
  exact h.finish hb

/-- What a disk may look like at any crash point of a transaction or of its recoveries. -/
def Crashed (t : Txn) (old new d : Disk) : Prop :=
  t.Clean old d ∨ t.Logged old new d ∨ t.Clean (t.installed old new) d

theorem Crashed.crashedRecoveries {old new : Disk} (ks : List Nat) (h : t.Crashed old new d) :
    t.Crashed old new (ks.foldl (Kernel.crashedRecovery t.start) d) := by
  induction ks generalizing d with
  | nil => exact h
  | cons k ks ih =>
    apply ih
    rcases h with hold | hlog | hnew
    · exact .inl (hold.crashedRecovery k)
    · exact .inr (hlog.crashedRecovery k)
    · exact .inr (.inr (hnew.crashedRecovery k))

/-! ## Commit -/

theorem commit_writes (t : Txn) (cache : Disk) (hpos : 0 < t.lh.length) :
    ∃ hb hb', (commit t.start ⟨cache, [], t.lh⟩).writes =
      t.copyWrites cache ++ ((t.start, packHead hb t.lh) ::
        (writesOf cache t.lh ++ [(t.start, packHead hb' [])])) := by
  have hcopy : ∀ i < t.lh.length, (writeHead t.start (writeLog t.start ⟨cache, [], t.lh⟩)).cache
      (t.start + i + 1) = cache (t.lh.getD i 0) := by
    intro i hi
    rw [t.writeLog_eq, writeHead_cache_of_ne _ _ (by omega)]
    exact t.applyWrites_copyWrites _ _ hi
  have hlh : (writeHead t.start (writeLog t.start ⟨cache, [], t.lh⟩)).lh = t.lh := by
    rw [t.writeLog_eq]
    rfl
  unfold commit
  rw [if_pos hpos, t.installTrans_eq cache _ hlh hcopy, writeHead_writes]
  simp only [writeHead_writes]
  rw [t.writeLog_eq]
  exact ⟨_, _, by rw [append_assoc, append_assoc]; rfl⟩

/-- After `write_log` and the header write the transaction is logged. -/
theorem logged_of_head (t : Txn) (old cache : Disk) (hb : Block) : t.Logged old cache
      (update (applyWrites old (t.copyWrites cache)) t.start (packHead hb t.lh)) := by
  refine ⟨?_, fun i hi => ?_, fun b hhome _ => ?_⟩
  · rw [update_self, readHead_packHead _ _ t.fits t.uint]
  · rw [update_of_ne (by omega), t.applyWrites_copyWrites _ _ hi]
  · rw [update_of_ne (t.ne_start_of_home hhome)]
    have hkeep := t.applyWrites_take_copyWrites old cache (t.copyWrites cache).length
      (.inr hhome)
    rwa [take_length] at hkeep

/-- The commit point is the header write: whatever prefix of the writes reaches the disk, the
transaction is either not begun, logged, or complete. -/
theorem crashed_commit (t : Txn) (old cache : Disk) (hhead : headN (old t.start) = 0) (k : Nat) :
    t.Crashed old cache
      (applyWrites old ((commit t.start ⟨cache, [], t.lh⟩).writes.take k)) := by
  by_cases hpos : 0 < t.lh.length
  · obtain ⟨hb, hb', hwrites⟩ := t.commit_writes cache hpos
    have hlen := t.length_copyWrites cache
    rw [hwrites]
    by_cases hk : k ≤ t.lh.length
    · -- the crash came during `write_log`: header and home blocks are untouched
      left
      rw [take_append_of_le_length (by rwa [hlen])]
      refine ⟨?_, fun b hhome => t.applyWrites_take_copyWrites old cache k (.inr hhome)⟩
      rw [t.applyWrites_take_copyWrites old cache k (.inl rfl), hhead]
    · right
      obtain ⟨m, rfl⟩ : ∃ m, k = t.lh.length + (m + 1) := ⟨k - t.lh.length - 1, by omega⟩
      rw [take_append, hlen, take_of_length_le (by omega), Nat.add_sub_cancel_left,
        take_succ_cons, applyWrites_append]
      change t.Logged old cache (applyWrites (update _ _ _) _) ∨
        t.Clean _ (applyWrites (update _ _ _) _)
      have hlogged := t.logged_of_head old cache hb
      by_cases hm : m ≤ t.lh.length
      · -- the crash came during `install_trans`
        left
        rw [take_append_of_le_length (by rwa [length_writesOf]), take_writesOf]
        exact hlogged.installPrefix m
      · right
        rw [take_of_length_le (by simp; omega), applyWrites_append]
        exact hlogged.finish hb'
  · left
    rw [commit, if_neg hpos, take_nil]
    exact ⟨hhead, fun _ _ => rfl⟩

end Txn

/-- Crash atomicity: however many writes of `commit()` reach the disk, and however often the
recovery is itself cut short, a completed recovery leaves the home blocks of the transaction all
old or all committed, every other home block untouched and the header empty. -/
theorem commit_crash_atomic (t : Txn) (old cache : Disk) (hhead : headN (old t.start) = 0)
    (k : Nat) (crashes : List Nat) :
    let crashed := applyWrites old ((commit t.start ⟨cache, [], t.lh⟩).writes.take k)
    let d := recovered t.start (crashes.foldl (crashedRecovery t.start) crashed)
    ((∀ b ∈ t.lh, d b = old b) ∨ (∀ b ∈ t.lh, d b = cache b)) ∧
      (∀ b, t.Home b → b ∉ t.lh → d b = old b) ∧ headN (d t.start) = 0 := by
  intro crashed d
  have hafter : t.Clean old d ∨ t.Clean (t.installed old cache) d := by
    rcases (t.crashed_commit old cache hhead k).crashedRecoveries crashes with hold | hlog | hnew
    · exact .inl hold.recovered
    · exact .inr hlog.recovered
    · exact .inr hnew.recovered
  rcases hafter with hold | hnew
  · exact ⟨.inl fun b hb => hold.blocks b (t.outside b hb), fun b hhome _ => hold.blocks b hhome,
      hold.head⟩
  · refine ⟨.inr fun b hb => ?_, fun b hhome hnot => ?_, hnew.head⟩
    · rw [hnew.blocks b (t.outside b hb), Txn.installed, if_pos hb]
    · rw [hnew.blocks b hhome, Txn.installed, if_neg hnot]

/-- A transaction on blocks 40 and 41 with the log at blocks 2 to 32. -/
def twoBlockTxn : Txn :=
  ⟨2, 31, [40, 41], by decide, by decide, by decide, by decide, by decide⟩

theorem commit_crash_atomic_twoBlocks :
    headN ((fun _ => Buffer.zero : Disk) twoBlockTxn.start) = 0 ∧
    let crashed := applyWrites (fun _ => Buffer.zero : Disk)
      ((commit twoBlockTxn.start ⟨fun _ _ => 7, [], twoBlockTxn.lh⟩).writes.take 4)
    let d := recovered twoBlockTxn.start ([1, 0].foldl (crashedRecovery twoBlockTxn.start) crashed)
    ((∀ b ∈ twoBlockTxn.lh, d b = Buffer.zero) ∨ (∀ b ∈ twoBlockTxn.lh, d b = fun _ => 7)) ∧
      (∀ b, twoBlockTxn.Home b → b ∉ twoBlockTxn.lh → d b = Buffer.zero) ∧
      headN (d twoBlockTxn.start) = 0 := by
  have hhead : headN (Buffer.zero : Block) = 0 := by rw [headN, word_zero]; rfl
  exact ⟨hhead, commit_crash_atomic twoBlockTxn (fun _ => Buffer.zero) (fun _ _ => 7) hhead 4
    [1, 0]⟩

end OsProjects.Kernel
