import OsProjects.Kernel.Bmap

/-!
# FileIo — `readi` and `writei` of `fs.c`

A copy between the kernel and the caller moves bytes until it meets one that it cannot access.
Kernel buffers have no such byte; for user memory the page table decides.
-/

namespace OsProjects.Kernel

open Lib Function List Nat

/-- The bytes that `either_copyin` finds at `src`, `src + 1`, …: `none` where it faults. -/
abbrev Source := Nat → Option UInt8

/-- The addresses from `dst` on at which `either_copyout` may write. -/
abbrev Dest := Nat → Bool

/-- The bytes moved before a fault, and whether all `n` were moved. -/
def eitherCopyin (src : Source) (pos : Nat) : Nat → List UInt8 × Bool
  | 0 => ([], true)
  | n + 1 =>
    match src pos with
    | none => ([], false)
    | some b =>
      match eitherCopyin src (pos + 1) n with
      | (bs, ok) => (b :: bs, ok)

def eitherCopyout (dst : Dest) (pos : Nat) : List UInt8 → List UInt8 × Bool
  | [] => ([], true)
  | b :: bs =>
    if dst pos then
      match eitherCopyout dst (pos + 1) bs with
      | (moved, ok) => (b :: moved, ok)
    else ([], false)

/-- The bytes of one round: up to the end of the request or of the block. -/
def chunk (n tot off : Nat) : Nat := min (n - tot) (BSIZE - off % BSIZE)

theorem chunk_pos {n tot : Nat} (off : Nat) (h : tot < n) : 0 < chunk n tot off := by
  have hmod := mod_lt off (by decide : 0 < BSIZE)
  unfold chunk
  omega

theorem chunk_le (n tot off : Nat) : chunk n tot off ≤ n - tot := min_le_left _ _

theorem mod_add_chunk (n tot off : Nat) : off % BSIZE + chunk n tot off ≤ BSIZE := by
  have hmod := mod_lt off (by decide : 0 < BSIZE)
  unfold chunk
  omega

/-- The loop of `writei`; the result is `tot`, `off`, the inode and the machine at its end. -/
def writeiLoop (sb : Superblock) (src : Source) (n tot off : Nat) (ip : Dinode) (m : Machine) :
    Except String (Nat × Nat × Dinode × Machine) :=
  if _h : tot < n then
    match bmap sb m ip (off / BSIZE) with
    | .error e => .error e
    | .ok (addr, ip, m) =>
      if addr = 0 then .ok (tot, off, ip, m)
      else
        match eitherCopyin src tot (chunk n tot off) with
        | (moved, ok) =>
          let m := m.store addr ((m.disk addr).copyIn (off % BSIZE) moved)
          if ok then
            writeiLoop sb src n (tot + chunk n tot off) (off + chunk n tot off) ip
              (m.logWrite addr)
          -- a faulting copy ends the loop with the bytes it moved in the buffer, but not logged
          else .ok (tot, off, ip, m)
  else .ok (tot, off, ip, m)
termination_by n - tot
decreasing_by
  have hpos := chunk_pos off _h
  omega

def writei (sb : Superblock) (m : Machine) (inum : Nat) (ip : Dinode) (src : Source)
    (off n : Nat) : Except String (Int × Dinode × Machine) :=
  if off > ip.size ∨ (off + n) % 2 ^ 32 < off then .ok (-1, ip, m)
  else if (off + n) % 2 ^ 32 > MAXFILE * BSIZE then .ok (-1, ip, m)
  else
    match writeiLoop sb src n 0 off ip m with
    | .error e => .error e
    | .ok (tot, off, ip, m) =>
      let ip := if off > ip.size then { ip with size := off } else ip
      .ok (tot, ip, iupdate sb m inum ip)

/-- The loop of `readi`; `out` is what has been copied to the destination so far. -/
def readiLoop (sb : Superblock) (dst : Dest) (n tot off : Nat) (ip : Dinode) (m : Machine)
    (out : List UInt8) : Except String (Int × List UInt8 × Dinode × Machine) :=
  if _h : tot < n then
    match bmap sb m ip (off / BSIZE) with
    | .error e => .error e
    | .ok (addr, ip, m) =>
      if addr = 0 then .ok (tot, out, ip, m)
      else
        match eitherCopyout dst tot ((m.disk addr).slice (off % BSIZE) (chunk n tot off)) with
        | (moved, ok) =>
          if ok then
            readiLoop sb dst n (tot + chunk n tot off) (off + chunk n tot off) ip m (out ++ moved)
          else .ok (-1, out ++ moved, ip, m)
  else .ok (tot, out, ip, m)
termination_by n - tot
decreasing_by
  have hpos := chunk_pos off _h
  omega

def readi (sb : Superblock) (m : Machine) (ip : Dinode) (dst : Dest) (off n : Nat) :
    Except String (Int × List UInt8 × Dinode × Machine) :=
  if off > ip.size ∨ (off + n) % 2 ^ 32 < off then .ok (0, [], ip, m)
  else readiLoop sb dst (if (off + n) % 2 ^ 32 > ip.size then ip.size - off else n) 0 off ip m []

/-! ## The copies -/

theorem eitherCopyin_spec (src : Source) (pos n : Nat) {bs : List UInt8} {ok : Bool}
    (h : eitherCopyin src pos n = (bs, ok)) :
    bs.length ≤ n ∧ (∀ k < bs.length, src (pos + k) = some (bs.getD k 0)) ∧
      (ok = true → bs.length = n) ∧ ((∀ k < n, src (pos + k) ≠ none) → ok = true) := by
  induction n generalizing pos bs ok with
  | zero =>
    cases h
    simp
  | succ n ih =>
    unfold eitherCopyin at h
    cases hsrc : src pos with
    | none =>
      simp only [hsrc] at h
      cases h
      refine ⟨by simp, by simp, by simp, fun hall => absurd hsrc (hall 0 (by omega))⟩
    | some b =>
      rcases hrest : eitherCopyin src (pos + 1) n with ⟨bs', ok'⟩
      simp only [hsrc, hrest] at h
      cases h
      obtain ⟨hlen, hbytes, hok, hall⟩ := ih (pos + 1) hrest
      refine ⟨by simpa using hlen, fun k hk => ?_, fun h => by
        simp [hok h], fun h => hall fun k hk => ?_⟩
      · cases k with
        | zero => simpa using hsrc
        | succ k =>
          rw [getD_cons_succ, ← hbytes k (by simpa using hk)]
          congr 1
          omega
      · rw [add_assoc, add_comm 1 k]
        exact h (k + 1) (by omega)

-- A copy that does not move all bytes has stopped at one it cannot read.
theorem eitherCopyin_fault (src : Source) (pos n : Nat) {bs : List UInt8}
    (h : eitherCopyin src pos n = (bs, false)) : bs.length < n ∧ src (pos + bs.length) = none := by
  induction n generalizing pos bs with
  | zero => simp [eitherCopyin] at h
  | succ n ih =>
    unfold eitherCopyin at h
    cases hsrc : src pos with
    | none =>
      simp only [hsrc] at h
      cases h
      exact ⟨succ_pos n, hsrc⟩
    | some b =>
      rcases hrest : eitherCopyin src (pos + 1) n with ⟨bs', ok⟩
      simp only [hsrc, hrest] at h
      cases h
      obtain ⟨hlen, hnone⟩ := ih (pos + 1) hrest
      rw [length_cons, add_comm _ 1, ← add_assoc]
      exact ⟨by omega, hnone⟩

theorem eitherCopyout_all (pos : Nat) (bs : List UInt8) :
    eitherCopyout (fun _ => true) pos bs = (bs, true) := by
  induction bs generalizing pos with
  | nil => rfl
  | cons b bs ih =>
    rw [eitherCopyout, if_pos rfl, ih]

/-! ## `writei` -/

variable {sb : Superblock} {F : Nat → Prop} {ino : Nat → Dinode} {d : Disk} {i off : Nat}
  {din' : Dinode}

theorem bitOf_store_data {a : Nat} (ha : sb.dataStart ≤ a) (data : Block) {c : Nat}
    (hc : c < sb.size) : bitOf sb (update d a data) c = bitOf sb d c := by
  have hbb := sb.BBLOCK_lt_dataStart hc
  exact bitOf_congr (update_of_ne (by omega) _ _)

-- Bytes stored in a leaf block change that stretch of that file.
theorem wrote_copyIn (hblocks : Blocks sb F ino d) (hi : F i) (hoff : off / BSIZE < MAXFILE)
    {a : Nat} (haddr : own d ino (i, leafNode (off / BSIZE)) = a) (ha : a ≠ 0)
    (data : List UInt8) (hfit : off % BSIZE + data.length ≤ BSIZE) :
    Wrote sb F ino d i (update d a ((d a).copyIn (off % BSIZE) data)) (ino i) off
      data := by
  have hpos : Pos F (i, leafNode (off / BSIZE)) := ⟨hi, leafNode_valid hoff⟩
  have hne : own d ino (i, leafNode (off / BSIZE)) ≠ 0 := by rw [haddr]; exact ha
  have hdata := hblocks.data_of_own hpos hne
  rw [haddr] at hdata
  have hbm := sb.bmapstart_le_data
  have hown : ∀ x, Pos F x → own (update d a ((d a).copyIn (off % BSIZE) data))
      (update ino i (ino i)) x = own d ino x := by
    rw [update_eq_self]
    apply own_congr (fun _ _ => rfl)
    intro i' slot q hi' hq hlen hne' j
    have hdiff := hblocks.leaf_ne_indirect hpos (length_leafNode _) hne hi' hq hlen
    rw [haddr] at hdiff
    rw [update_of_ne hdiff.symm]
  have hbits : ∀ c < sb.size, bitOf sb (update d a ((d a).copyIn (off % BSIZE) data)) c =
      bitOf sb d c := fun c hc => bitOf_store_data hdata.1 _ hc
  have hused : ∀ c, Used sb (update d a ((d a).copyIn (off % BSIZE) data)) c ↔
      Used sb d c := by
    intro c
    constructor
    · rintro ⟨hlo, hhi, hset⟩
      exact ⟨hlo, hhi, by rw [← hbits c hhi]; exact hset⟩
    · rintro ⟨hlo, hhi, hset⟩
      exact ⟨hlo, hhi, by rw [hbits c hhi]; exact hset⟩
  refine ⟨⟨hblocks.owned.congr hown fun c hc => (hused c).mpr hc, fun c hc => ?_⟩,
    fun hleak c hc => ?_, fun c hc => update_of_ne (by omega) _ _, rfl,
    fun x hx _ => hown x hx, fun i' hi' k hk => ?_⟩
  · rw [hbits c (by omega), hblocks.reserved c hc]
  · obtain ⟨x, hx, hxc⟩ := hleak c ((hused c).mp hc)
    exact ⟨x, hx, (hown x hx).trans hxc⟩
  · have hx : Pos F (i', leafNode (k / BSIZE)) := ⟨hi', leafNode_valid (block_lt_MAXFILE hk)⟩
    have hk' := div_add_mod k BSIZE
    have hoff' := div_add_mod off BSIZE
    change (if own _ _ (i', leafNode (k / BSIZE)) = 0 then 0 else
        (update d a ((d a).copyIn (off % BSIZE) data)
          (own _ _ (i', leafNode (k / BSIZE)))).get _) = if _ then _ else
      if own d ino (i', leafNode (k / BSIZE)) = 0 then 0 else
        (d (own d ino (i', leafNode (k / BSIZE)))).get _
    rw [hown _ hx]
    by_cases hsame : own d ino (i', leafNode (k / BSIZE)) = a
    · -- by disjointness this is the block that was written
      have hinj := hblocks.owned.inj _ _ hx hpos (by rw [hsame]; exact ha) (hsame.trans haddr.symm)
      obtain ⟨rfl, hleaf⟩ := Prod.mk.inj hinj
      have hblock := leafNode_inj hleaf
      rw [hblock] at hk'
      rw [hsame, if_neg ha, if_neg ha, update_self, Buffer.get_copyIn _ _ _ _ hfit]
      split
      · rw [if_pos ⟨rfl, by omega⟩]
        congr 1
        omega
      · rw [if_neg (by omega)]
    · have hout : ¬ (i' = i ∧ off ≤ k ∧ k < off + data.length) := by
        rintro ⟨rfl, hlo, hhi⟩
        have hblock : k / BSIZE = off / BSIZE := by
          simp only [BSIZE] at *
          omega
        exact hsame (by rw [hblock]; exact haddr)
      rw [update_of_ne hsame, if_neg hout]

theorem Wrote.bootZero {d' : Disk} {data : List UInt8}
    (h : Wrote sb F ino d i d' din' off data) (hboot : BootZero d) : BootZero d' := by
  intro j
  rw [h.low 0 sb.bmapstart_pos, hboot j]

-- Whatever the disk holds, the loop returns if its offsets are in range.
theorem writeiLoop_total (sb : Superblock) (src : Source) (n tot off : Nat) (ip : Dinode)
    (m : Machine) (hfit : off + (n - tot) ≤ MAXFILE * BSIZE) :
    ∃ tot' off' ip' m', writeiLoop sb src n tot off ip m = .ok (tot', off', ip', m') ∧
      off' ≤ off + (n - tot) ∧ m.console <:+ m'.console ∧
      ip' = { ip with addrs := ip'.addrs } := by
  induction hrem : n - tot using Nat.strong_induction_on generalizing tot off ip m with
  | _ rem ih =>
    unfold writeiLoop
    by_cases htot : tot < n
    · have hbn : off / BSIZE < MAXFILE := block_lt_MAXFILE (by omega)
      obtain ⟨a, ip1, m1, hbmap, hconsole, hfields⟩ := bmap_total sb m ip hbn
      rw [dif_pos htot, hbmap]
      by_cases ha : a = 0
      · exact ⟨tot, off, ip1, m1, if_pos ha, by omega, hconsole, hfields⟩
      rcases hcopy : eitherCopyin src tot (chunk n tot off) with ⟨moved, ok⟩
      have hpos := chunk_pos off htot
      have hle := chunk_le n tot off
      simp only [if_neg ha]
      cases ok with
      | false => exact ⟨tot, off, ip1, _, rfl, by omega, hconsole, hfields⟩
      | true =>
        obtain ⟨tot', off', ip', m', hrest, hoff', hconsole', hfields'⟩ :=
          ih (n - (tot + chunk n tot off)) (by omega) (tot + chunk n tot off)
            (off + chunk n tot off) ip1
            ((m1.store a ((m1.disk a).copyIn (off % BSIZE) moved)).logWrite a) (by omega) rfl
        refine ⟨tot', off', ip', m', hrest, by omega, hconsole.trans hconsole', ?_⟩
        rw [hfields', hfields]
    · rw [dif_neg htot]
      exact ⟨tot, off, ip, m, rfl, by omega, suffix_rfl, rfl⟩

/-- What the loop of `writei` has done when it ends after `tot'` bytes: the bytes moved are those
of the source.  When nothing was printed and no byte faults, it has moved all of them. -/
structure Looped (sb : Superblock) (F : Nat → Prop) (ino : Nat → Dinode) (src : Source)
    (m : Machine) (i n tot off : Nat) (tot' off' : Nat) (din' : Dinode) (m' : Machine)
    (data : List UInt8) : Prop where
  wrote : Wrote sb F ino m.disk i m'.disk din' off data
  total : tot ≤ tot'
  offset : off' = off + (tot' - tot)
  moved : tot' - tot ≤ data.length
  short : data.length ≤ n - tot
  copied : ∀ k < data.length, src (tot + k) = some (data.getD k 0)
  finish : m'.console = m.console → (∀ k < n, src k ≠ none) → tot ≤ n →
    tot' = n ∧ data.length = n - tot

theorem length_lt_of_cons_suffix {α : Type} {x : α} {l l' : List α} (h : (x :: l) <:+ l') :
    l' ≠ l := by
  intro heq
  have hlen := h.length_le
  rw [heq, length_cons] at hlen
  omega

theorem writeiLoop_spec {src : Source} {n tot tot' off' : Nat} {m m' : Machine}
    (hblocks : Blocks sb F ino m.disk) (hi : F i) (hfit : off + (n - tot) ≤ MAXFILE * BSIZE)
    (hloop : writeiLoop sb src n tot off (ino i) m = .ok (tot', off', din', m'))
    (hok : BootZero m.disk ∨ m'.console = m.console) :
    ∃ data, Looped sb F ino src m i n tot off tot' off' din' m' data := by
  induction hrem : n - tot using Nat.strong_induction_on generalizing tot off ino m with
  | _ rem ih =>
    unfold writeiLoop at hloop
    by_cases htot : tot < n
    swap
    · rw [dif_neg htot] at hloop
      cases hloop
      exact ⟨[], .refl hblocks i _, le_rfl, by omega, by simp, by simp, by simp,
        fun _ _ hle => ⟨by omega, by simp; omega⟩⟩
    have hbn : off / BSIZE < MAXFILE := block_lt_MAXFILE (by omega)
    obtain ⟨a, din1, m1, hbmap, hmapped⟩ := bmap_spec hblocks hi hbn
    rw [dif_pos htot, hbmap] at hloop
    by_cases ha : a = 0
    · -- no block: the loop ends here
      simp only [if_pos ha] at hloop
      cases hloop
      rcases hmapped.found with ⟨hne, -, -⟩ | ⟨hprinted, -⟩
      · exact absurd ha hne
      · exact ⟨[], hmapped.wrote, le_rfl, by omega, by simp, by simp, by simp,
          fun hsame => absurd hsame (length_lt_of_cons_suffix hprinted)⟩
    rcases hcopy : eitherCopyin src tot (chunk n tot off) with ⟨moved, ok⟩
    obtain ⟨hlen, hbytes, hwhole, hnofault⟩ := eitherCopyin_spec src tot _ hcopy
    have hpos := chunk_pos off htot
    have hle := chunk_le n tot off
    have hblock := mod_add_chunk n tot off
    simp only [if_neg ha, hcopy] at hloop
    -- a non-zero address is the block's own: otherwise something was printed, and the boot block
    -- is not zero
    have hgrow : m1.console <:+ m'.console := by
      cases ok with
      | false =>
        cases hloop
        exact suffix_rfl
      | true =>
        obtain ⟨_, _, _, m2, hrest, -, hconsole, -⟩ := writeiLoop_total sb src n
          (tot + chunk n tot off) (off + chunk n tot off) din1
          ((m1.store a ((m1.disk a).copyIn (off % BSIZE) moved)).logWrite a) (by omega)
        simp only [if_true, hrest] at hloop
        cases hloop
        exact hconsole
    obtain ⟨-, haddr, hquiet⟩ := hmapped.found.resolve_right (by
      rintro ⟨hprinted, hzero⟩
      rcases hok with hboot | hsame
      · exact ha (hzero hboot)
      · exact length_lt_of_cons_suffix (hprinted.trans hgrow) hsame)
    have hstored := wrote_copyIn hmapped.wrote.blocks hi hbn haddr ha moved (by omega)
    rw [update_self] at hstored
    have hwrote := hmapped.wrote.trans hstored
    rw [nil_append] at hwrote
    cases ok with
    | false =>
      cases hloop
      refine ⟨moved, hwrote, le_rfl, by omega, by omega, by omega, hbytes, fun _ hall _ => ?_⟩
      have hfault := hnofault fun k hk => hall (_ + k) (by omega)
      cases hfault
    | true =>
      have hmoved := hwhole rfl
      have hself : update ino i din1 i = din1 := update_self _ _ _
      rw [← hself] at hloop
      have hblocks2 : Blocks sb F (update ino i din1) ((m1.store a
          ((m1.disk a).copyIn (off % BSIZE) moved)).logWrite a).disk := hwrote.blocks
      obtain ⟨data, hrest⟩ := ih (n - (tot + chunk n tot off)) (by omega) hblocks2
        (by omega) hloop (hok.imp hwrote.bootZero fun hsame => hsame.trans hquiet.symm) rfl
      refine ⟨moved ++ data, hwrote.trans (by rw [hmoved]; exact hrest.wrote), ?_, ?_, ?_, ?_, ?_,
        ?_⟩
      · have htotal := hrest.total
        omega
      · have htotal := hrest.total
        have hoffset := hrest.offset
        omega
      · have hmore := hrest.moved
        rw [length_append]
        omega
      · have hshort := hrest.short
        rw [length_append]
        omega
      · intro k hk
        by_cases hk' : k < moved.length
        · rw [getD_append _ _ _ _ hk', hbytes k hk']
        · rw [getD_append_right _ _ _ _ (by omega), ← hrest.copied (k - moved.length)
            (by rw [length_append] at hk; omega)]
          congr 1
          omega
      · intro hsame hall _
        obtain ⟨htot', hlen'⟩ := hrest.finish (hsame.trans hquiet.symm) hall (by omega)
        refine ⟨htot', ?_⟩
        rw [length_append]
        omega

theorem iupdate_high (sb : Superblock) (m : Machine) {i : Nat} (hi : i < sb.ninodes) (din : Dinode)
    (c : Nat) (hc : sb.bmapstart ≤ c) : (iupdate sb m i din).disk c = m.disk c := by
  have hlt := sb.IBLOCK_lt_bmapstart hi
  exact update_of_ne (by omega) _ _

theorem iupdate_zero (sb : Superblock) (m : Machine) (i : Nat) (din : Dinode) :
    (iupdate sb m i din).disk 0 = m.disk 0 := by
  have htwo := sb.two_le_IBLOCK i
  exact update_of_ne (by omega) _ _

theorem BootZero.iupdate {m : Machine} (h : BootZero m.disk) (sb : Superblock) (i : Nat)
    (din : Dinode) : BootZero (Kernel.iupdate sb m i din).disk := fun j => by
  rw [iupdate_zero]
  exact h j

/-- The size after a write that ended at `off`. -/
def grown (din : Dinode) (off : Nat) : Dinode :=
  if off > din.size then { din with size := off } else din

theorem grown_addrs (din : Dinode) (off : Nat) : (grown din off).addrs = din.addrs := by
  unfold grown
  split <;> rfl

theorem update_addrs {din din' : Dinode} (h : din'.addrs = din.addrs) (ino : Nat → Dinode)
    (i j : Nat) : (update ino i din' j).addrs = (update ino i din j).addrs := by
  by_cases hj : j = i
  · rw [hj, update_self, update_self, h]
  · rw [update_of_ne hj, update_of_ne hj]

theorem grown_size (din : Dinode) (off : Nat) : (grown din off).size = max din.size off := by
  unfold grown
  split
  next hmore =>
    rw [max_eq_right (le_of_lt hmore)]
  · rw [max_eq_left (by omega)]

/-- The requests that `writei` refuses. -/
def Refused (size off n : Nat) : Prop :=
  size < off ∨ (off + n) % 2 ^ 32 < off ∨ MAXFILE * BSIZE < (off + n) % 2 ^ 32

instance (size off n : Nat) : Decidable (Refused size off n) :=
  inferInstanceAs (Decidable (_ ∨ _ ∨ _))

theorem not_refused {size off n : Nat} (hn : n < 2 ^ 32) (h : ¬ Refused size off n) :
    off ≤ size ∧ off + n ≤ MAXFILE * BSIZE := by
  unfold Refused at h
  omega

theorem writei_refused (sb : Superblock) (m : Machine) (inum : Nat) (ip : Dinode) (src : Source)
    {off n : Nat} (h : Refused ip.size off n) :
    writei sb m inum ip src off n = .ok (-1, ip, m) := by
  unfold writei
  by_cases hfirst : off > ip.size ∨ (off + n) % 2 ^ 32 < off
  · rw [if_pos hfirst]
  · rw [if_neg hfirst, if_pos (by unfold Refused at h; omega)]

theorem writei_eq (sb : Superblock) (m : Machine) (inum : Nat) (ip : Dinode) (src : Source)
    {off n : Nat} (h : ¬ Refused ip.size off n) :
    writei sb m inum ip src off n = (writeiLoop sb src n 0 off ip m).map fun r =>
      ((r.1 : Int), grown r.2.2.1 r.2.1, iupdate sb r.2.2.2 inum (grown r.2.2.1 r.2.1)) := by
  unfold Refused at h
  unfold writei
  rw [if_neg (by omega), if_neg (by omega)]
  cases writeiLoop sb src n 0 off ip m with
  | error e | ok r => rfl

theorem writei_returns (sb : Superblock) (m : Machine) (inum : Nat) (ip : Dinode) (src : Source)
    {off n : Nat} (hn : n < 2 ^ 32) (href : ¬ Refused ip.size off n) :
    ∃ (r : Nat) (ip' : Dinode) (m' : Machine),
      writei sb m inum ip src off n = .ok ((r : Int), ip', m') := by
  obtain ⟨-, hfit⟩ := not_refused hn href
  obtain ⟨tot, off', ip₂, m₂, hloop, -⟩ := writeiLoop_total sb src n 0 off ip m (by omega)
  exact ⟨tot, _, _, by rw [writei_eq _ _ _ _ _ href, hloop]; rfl⟩

/-! ## `readi` -/

theorem readi_refused (sb : Superblock) (m : Machine) (ip : Dinode) (dst : Dest) {off n : Nat}
    (h : off > ip.size ∨ (off + n) % 2 ^ 32 < off) :
    readi sb m ip dst off n = .ok (0, [], ip, m) := by
  rw [readi, if_pos h]

theorem readi_eq (sb : Superblock) (m : Machine) (ip : Dinode) (dst : Dest) {off n : Nat}
    (hn : n < 2 ^ 32) (h : ¬ (off > ip.size ∨ (off + n) % 2 ^ 32 < off)) :
    readi sb m ip dst off n = readiLoop sb dst (min n (ip.size - off)) 0 off ip m [] := by
  have hmin : (if (off + n) % 2 ^ 32 > ip.size then ip.size - off else n) =
      min n (ip.size - off) := by
    split
    · omega
    · omega
  rw [readi, if_neg h, hmin]

theorem readiLoop_total (sb : Superblock) (dst : Dest) (n tot off : Nat) (ip : Dinode)
    (m : Machine) (out : List UInt8) (hfit : off + (n - tot) ≤ MAXFILE * BSIZE) :
    ∃ ret out' ip' m', readiLoop sb dst n tot off ip m out = .ok (ret, out', ip', m') ∧
      m.console <:+ m'.console ∧ ip' = { ip with addrs := ip'.addrs } := by
  induction hrem : n - tot using Nat.strong_induction_on generalizing tot off ip m out with
  | _ rem ih =>
    unfold readiLoop
    by_cases htot : tot < n
    · have hbn : off / BSIZE < MAXFILE := block_lt_MAXFILE (by omega)
      obtain ⟨a, ip1, m1, hbmap, hconsole, hfields⟩ := bmap_total sb m ip hbn
      rw [dif_pos htot, hbmap]
      by_cases ha : a = 0
      · exact ⟨tot, out, ip1, m1, if_pos ha, hconsole, hfields⟩
      rcases hcopy : eitherCopyout dst tot ((m1.disk a).slice (off % BSIZE) (chunk n tot off)) with
        ⟨moved, ok⟩
      have hpos := chunk_pos off htot
      have hle := chunk_le n tot off
      simp only [if_neg ha, hcopy]
      cases ok with
      | false => exact ⟨-1, out ++ moved, ip1, m1, rfl, hconsole, hfields⟩
      | true =>
        obtain ⟨ret, out', ip', m', hrest, hconsole', hfields'⟩ :=
          ih (n - (tot + chunk n tot off)) (by omega) (tot + chunk n tot off)
            (off + chunk n tot off) ip1 m1 (out ++ moved) (by omega) rfl
        refine ⟨ret, out', ip', m', hrest, hconsole.trans hconsole', ?_⟩
        rw [hfields', hfields]
    · rw [dif_neg htot]
      exact ⟨tot, out, ip, m, rfl, suffix_rfl, rfl⟩

-- Reading is writing what is there already.
theorem Wrote.same (hblocks : Blocks sb F ino d) (data : List UInt8)
    (hdata : ∀ k < data.length, data.getD k 0 = byteAt d (ino i) (off + k)) :
    Wrote sb F ino d i d (ino i) off data := by
  have hrefl := Wrote.refl hblocks i off
  refine ⟨hrefl.blocks, hrefl.noLeak, hrefl.low, hrefl.fields, hrefl.keep, fun i' hi' k hk => ?_⟩
  rw [update_eq_self]
  by_cases hin : i' = i ∧ off ≤ k ∧ k < off + data.length
  · rw [if_pos hin, hdata _ (by omega), hin.1]
    congr 1
    omega
  · rw [if_neg hin]

theorem readiLoop_spec {n tot : Nat} {ret : Int} {m m' : Machine}
    {out out' : List UInt8} (hblocks : Blocks sb F ino m.disk) (hi : F i)
    (hfit : off + (n - tot) ≤ MAXFILE * BSIZE) (htot : tot ≤ n)
    (hloop : readiLoop sb (fun _ => true) n tot off (ino i) m out = .ok (ret, out', din', m'))
    (hquiet : m'.console = m.console) :
    ret = n ∧ ∃ data, out' = out ++ data ∧ data.length = n - tot ∧
      Wrote sb F ino m.disk i m'.disk din' off data ∧
      ∀ k < data.length, data.getD k 0 = byteAt m.disk (ino i) (off + k) := by
  induction hrem : n - tot using Nat.strong_induction_on generalizing tot off ino m out with
  | _ rem ih =>
    unfold readiLoop at hloop
    by_cases hmore : tot < n
    swap
    · rw [dif_neg hmore] at hloop
      cases hloop
      exact ⟨by omega, [], (append_nil _).symm, by simp; omega, .refl hblocks i off, by simp⟩
    have hbn : off / BSIZE < MAXFILE := block_lt_MAXFILE (by omega)
    obtain ⟨a, din1, m1, hbmap, hmapped⟩ := bmap_spec hblocks hi hbn
    have hpos := chunk_pos off hmore
    have hle := chunk_le n tot off
    have hblock := mod_add_chunk n tot off
    simp only [dif_pos hmore, hbmap, eitherCopyout_all, if_true] at hloop
    have hgrow : m1.console <:+ m'.console := by
      by_cases ha : a = 0
      · simp only [if_pos ha] at hloop
        cases hloop
        exact suffix_rfl
      · obtain ⟨_, _, _, m2, hrest, hconsole, -⟩ := readiLoop_total sb (fun _ => true) n
          (tot + chunk n tot off) (off + chunk n tot off) din1 m1
          (out ++ (m1.disk a).slice (off % BSIZE) (chunk n tot off)) (by omega)
        simp only [if_neg ha, hrest] at hloop
        cases hloop
        exact hconsole
    obtain ⟨ha, haddr, hquiet1⟩ := hmapped.found.resolve_right fun hprinted =>
      length_lt_of_cons_suffix (hprinted.1.trans hgrow) hquiet
    have hread : ∀ k < chunk n tot off,
        ((m1.disk a).slice (off % BSIZE) (chunk n tot off)).getD k 0 =
          byteAt m1.disk (update ino i din1 i) (off + k) := by
      intro k hk
      have hdiv : (off + k) / BSIZE = off / BSIZE := by
        simp only [BSIZE] at *
        omega
      have hmod : (off + k) % BSIZE = off % BSIZE + k := by
        simp only [BSIZE] at *
        omega
      rw [Buffer.getD_slice _ _ _ _ hk, byteAt, hdiv, hmod]
      change _ = if own m1.disk (update ino i din1) (i, leafNode (off / BSIZE)) = 0 then 0
        else (m1.disk (own m1.disk (update ino i din1) (i, leafNode (off / BSIZE)))).get _
      rw [haddr, if_neg ha]
    have hsame : ∀ k < chunk n tot off, byteAt m1.disk (update ino i din1 i) (off + k) =
        byteAt m.disk (ino i) (off + k) := by
      intro k hk
      rw [hmapped.wrote.bytes i hi (off + k) (by omega), if_neg (by simp)]
    have hwrote := hmapped.wrote.trans (Wrote.same (i := i) hmapped.wrote.blocks
      ((m1.disk a).slice (off % BSIZE) (chunk n tot off)) (by simpa using hread))
    rw [nil_append, update_self] at hwrote
    simp only [if_neg ha] at hloop
    have hself : update ino i din1 i = din1 := update_self _ _ _
    rw [← hself] at hloop
    obtain ⟨hret, data, rfl, hlen, hrest, hbytes⟩ := ih (n - (tot + chunk n tot off)) (by omega)
      hwrote.blocks (by omega) (by omega) hloop (hquiet.trans hquiet1.symm) rfl
    refine ⟨hret, _, append_assoc _ _ _, ?_,
      hwrote.trans (by rw [Buffer.length_slice]; exact hrest), fun k hk => ?_⟩
    · rw [length_append, Buffer.length_slice]
      omega
    · rw [length_append, Buffer.length_slice] at hk
      by_cases hk' : k < chunk n tot off
      · rw [getD_append _ _ _ _ (by rwa [Buffer.length_slice]), hread k hk', hsame k hk']
      · rw [getD_append_right _ _ _ _ (by rw [Buffer.length_slice]; omega),
          Buffer.length_slice, hbytes _ (by omega),
          hwrote.bytes i hi _ (by omega), if_neg (by rw [Buffer.length_slice]; omega)]
        congr 1
        omega

end OsProjects.Kernel
