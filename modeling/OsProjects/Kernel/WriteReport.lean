import OsProjects.Kernel.Format
import OsProjects.Kernel.WriteRounds

/-!
# WriteReport — what `writei` reports and what it has changed

When the copy of a round faults, `writei` counts none of the round's bytes, but those before the
fault have already been moved into the cached buffer.
-/

namespace OsProjects.Kernel

open Lib List

variable {sb : Superblock} {m m₁ m₂ m' : Machine} {ip ip₂ ip' : Dinode} {d : Disk} {src : Source}
  {n off tot inum r : Nat}

/-- Byte `p` of a file after `r` bytes of the source have been written at `off`. -/
def patched (d : Disk) (ip : Dinode) (src : Source) (off r p : Nat) : UInt8 :=
  if off ≤ p ∧ p < off + r then (src (p - off)).getD 0 else byteAt d ip p

/-- The call has changed what its result `r` says and nothing else, and has logged every buffer that
it changed. -/
structure Reports (sb : Superblock) (ip : Dinode) (m : Machine) (src : Source) (off r : Nat)
    (ip' : Dinode) (m' : Machine) : Prop where
  size : ip'.size = max ip.size (off + r)
  bytes : ∀ p < ip'.size, p < MAXFILE * BSIZE →
    byteAt m'.disk ip' p = patched m.disk ip src off r p
  reads : ∀ ro rn ret out ip₃ m₃, ro + rn ≤ MAXFILE * BSIZE →
    readi sb m' ip' (fun _ => true) ro rn = .ok (ret, out, ip₃, m₃) → m₃.console = m'.console →
      out = (List.range (min rn (ip'.size - ro))).map fun k => patched m.disk ip src off r (ro + k)
  logged : ∃ new, m'.logged = new ++ m.logged ∧ ∀ c, m'.disk c ≠ m.disk c → c ∈ new

/-- If the source faults, at byte `t`, and the blocks up to the one that is then being copied can be
had, the bytes moved into that block make no difference: each is there already, or lies beyond the
end of the file in a block that has been allocated for it. -/
def FaultHarmless (sb : Superblock) (d : Disk) (ip : Dinode) (src : Source) (off n : Nat) : Prop :=
  ∀ t < n, src t = none → (∀ k < t, src k ≠ none) → Affordable sb d ip (spans off (t + 1)) →
    ∀ k < t, (off + k) / BSIZE = (off + t) / BSIZE → src k = some (byteAt d ip (off + k)) ∨
      addr d ip (leafNode ((off + k) / BSIZE)) = 0 ∧ ip.size ≤ off + k

/-! ## The buffers -/

-- The data blocks that were there before are logged only when data is written to them.
theorem Grants.leaf_not_logged {ns : List Node} {bs written : List Nat}
    (h : Grants sb ip m ip' m' ns bs written) (htree : WellFormedTree sb m.disk ip) {bn a : Nat}
    (hbn : bn < MAXFILE) (haddr : addr m.disk ip (leafNode bn) = a) (ha : a ≠ 0) :
    a ∉ bs ∧ a ∉ bs.map (BBLOCK sb) ∧ a ∉ recordBlocks m'.disk ip' ns := by
  have hleaf := leafNode_valid hbn
  have hused := htree.used_of_own _ hleaf (by rw [haddr]; exact ha)
  rw [haddr] at hused
  have hfree : ∀ b ∈ bs, b < sb.size ∧ bitOf sb m.disk b = false := fun b hb =>
    mem_freeBlocks.mp (by rw [h.free]; exact mem_append_left _ hb)
  refine ⟨fun hmem => ?_, fun hmem => ?_, fun hmem => ?_⟩
  · have hclear := (hfree a hmem).2
    rw [hused.2.2] at hclear
    cases hclear
  · obtain ⟨b, hb, rfl⟩ := mem_map.mp hmem
    have hlt := sb.BBLOCK_lt_dataStart (hfree b hb).1
    have hdata := hused.1
    omega
  · -- the address of a node stands in an indirect block, which is no leaf
    obtain ⟨node, hnode, hparent⟩ := mem_map.mp hmem
    obtain ⟨hnode, hpath⟩ := mem_filter.mp hnode
    have hpath : node.path ≠ [] := by simpa using hpath
    have hvalid := (h.empty node hnode).1
    have hkeep := h.keep hleaf (by rw [haddr]; exact ha)
    have hsame := h.tree.inj _ _ hvalid.parent hleaf (by rw [hparent]; exact ha)
      (by rw [hparent, hkeep, haddr])
    have hlen := length_leafNode bn
    rw [← hsame] at hlen
    have hdepth := hvalid.depth
    have hpos := length_pos_iff.mpr hpath
    change node.path.dropLast.length = levels node.slot at hlen
    rw [length_dropLast] at hlen
    omega

section Update

variable (htree : WellFormedTree sb m₂.disk ip₂)
  (hreserved : Reserved sb m₂.disk) (hinum : inum < sb.ninodes)
  (haddrs : ip'.addrs = ip₂.addrs)

include htree hreserved hinum haddrs

-- `iupdate` leaves the tree and its bytes alone.
theorem blocks_iupdate : Blocks sb (· = 0) (fun _ => ip') (iupdate sb m₂ inum ip').disk :=
  (htree.blocks hreserved).high (fun _ _ => haddrs) (iupdate_high sb m₂ hinum ip')

theorem byteAt_iupdate {p : Nat} (hp : p < MAXFILE * BSIZE) :
    byteAt (iupdate sb m₂ inum ip').disk ip' p = byteAt m₂.disk ip₂ p :=
  @byteAt_high sb (· = 0) (fun _ => ip₂) (fun _ => ip') m₂.disk (iupdate sb m₂ inum ip').disk
    (htree.blocks hreserved) (fun _ _ => haddrs) (iupdate_high sb m₂ hinum ip') 0 p rfl hp

end Update

-- What `readi` returns are the bytes of the file.
theorem readi_bytes (hblocks : Blocks sb (· = 0) (fun _ => ip') m'.disk) {ro rn : Nat} {ret : Int}
    {out : List UInt8} {ip₃ : Dinode} {m₃ : Machine} (hfit : ro + rn ≤ MAXFILE * BSIZE)
    (hrun : readi sb m' ip' (fun _ => true) ro rn = .ok (ret, out, ip₃, m₃))
    (hquiet : m₃.console = m'.console) :
    out = (List.range (min rn (ip'.size - ro))).map fun k => byteAt m'.disk ip' (ro + k) := by
  have hmax : MAXFILE * BSIZE < 2 ^ 32 := by decide
  by_cases hout : ro > ip'.size
  · rw [readi_refused _ _ _ _ (.inl hout)] at hrun
    cases hrun
    rw [Nat.sub_eq_zero_of_le (le_of_lt hout), Nat.min_zero]
    rfl
  · rw [readi_eq _ _ _ _ (by omega) (by rw [Nat.mod_eq_of_lt (by omega)]; omega)] at hrun
    obtain ⟨-, data, rfl, hlen, -, hbytes⟩ := readiLoop_spec hblocks rfl (by omega)
      (Nat.zero_le _) hrun hquiet
    apply ext_getElem
    · rw [length_map, length_range, hlen, Nat.sub_zero]
    · intro k hk hk'
      rw [getElem_map, getElem_range, ← hbytes k hk, getD_eq_getElem _ _ hk]

theorem patched_of_copied {len : Nat} (h : Copied sb src off ip d len ip₂ m₂.disk)
    (hinum : inum < sb.ninodes) (haddrs : ip'.addrs = ip₂.addrs) {p : Nat}
    (hp : p < MAXFILE * BSIZE) :
    byteAt (iupdate sb m₂ inum ip').disk ip' p = patched d ip src off len p := by
  obtain ⟨htree, hreserved⟩ := h.wellFormedTree
  rw [byteAt_iupdate htree hreserved hinum haddrs hp, h.byteAt_eq hp, patched]

-- The bytes and the log are all there is to show.
theorem reports_of {len : Nat} (h : Copied sb src off ip m.disk len ip₂ m₂.disk)
    (hinum : inum < sb.ninodes) (hip' : ip' = grown ip₂ (off + r))
    (hm' : m' = iupdate sb m₂ inum ip') (hbytes : ∀ p < ip'.size, p < MAXFILE * BSIZE →
      patched m.disk ip src off len p = patched m.disk ip src off r p)
    (hlogged : ∃ new, m₂.logged = new ++ m.logged ∧ ∀ c, m₂.disk c ≠ m.disk c → c ∈ new) :
    Reports sb ip m src off r ip' m' := by
  have haddrs : ip'.addrs = ip₂.addrs := by rw [hip', grown_addrs]
  obtain ⟨htree, hreserved⟩ := h.wellFormedTree
  have hall : ∀ p < ip'.size, p < MAXFILE * BSIZE →
      byteAt m'.disk ip' p = patched m.disk ip src off r p := by
    intro p hp hmax
    rw [hm', patched_of_copied h hinum haddrs hmax, hbytes p hp hmax]
  refine ⟨?_, hall, fun ro rn ret out ip3 m3 hfit hrun hquiet => ?_, ?_⟩
  · rw [hip', grown_size, h.fields]
  · have hblocks : Blocks sb (· = 0) (fun _ => ip') m'.disk := by
      rw [hm']
      exact blocks_iupdate htree hreserved hinum haddrs
    rw [readi_bytes hblocks hfit hrun hquiet]
    apply map_congr_left
    intro k hk
    have hk := mem_range.mp hk
    exact hall (ro + k) (by omega) (by omega)
  · obtain ⟨new, hnew, hin⟩ := hlogged
    refine ⟨IBLOCK sb inum :: new, by rw [hm', iupdate]; exact congrArg _ hnew, fun c hc => ?_⟩
    by_cases hblock : c = IBLOCK sb inum
    · rw [hblock]
      exact mem_cons_self
    · refine mem_cons_of_mem _ (hin c fun hsame => hc ?_)
      rw [hm', ← hsame]
      exact Function.update_of_ne hblock _ _

theorem Grants.changed_logged {ns : List Node} {bs written : List Nat}
    (h : Grants sb ip m ip' m' ns bs written) :
    ∃ new, m'.logged = new ++ m.logged ∧ ∀ c, m'.disk c ≠ m.disk c → c ∈ new := by
  obtain ⟨new, hnew, hmem⟩ := h.logged
  refine ⟨new, hnew, fun c hc => (hmem c).mpr ?_⟩
  by_contra hout
  simp only [not_or] at hout
  exact hc (h.frame c hout.1 hout.2.1 hout.2.2.1 hout.2.2.2)

/-! ## A fault -/

namespace Fault

variable {t a : Nat} (h : Fault sb src n off ip m r ip₂ m₂ t a m₁)

include h

theorem spans_eq : spans off (t + 1) = spans off (r + 1) := by
  have hblock := h.block
  rw [spans_pos off (by omega), spans_pos off (by omega)]
  change blockRange _ ((off + t) / BSIZE) = blockRange _ ((off + r) / BSIZE)
  rw [hblock]

-- The round starts with its block or with the request.
theorem block_iff {k : Nat} (hk : k < t) : (off + k) / BSIZE = (off + t) / BSIZE ↔ r ≤ k := by
  have hblock := h.block
  have hle := h.le
  have hstart := h.start
  unfold RoundStart at hstart
  simp only [BSIZE] at *
  omega

theorem harmless_iff : FaultHarmless sb m.disk ip src off n ↔
    ∀ k, r ≤ k → k < t → src k = some (byteAt m.disk ip (off + k)) ∨
      addr m.disk ip (leafNode ((off + r) / BSIZE)) = 0 ∧ ip.size ≤ off + k := by
  constructor
  · intro hharmless k hr hk
    have hblock := (h.block_iff hk).mpr hr
    have hone := hharmless t h.lt h.fault h.copied.readable (h.spans_eq ▸ h.affordable) k hk hblock
    rwa [hblock, h.block] at hone
  · intro hall t' ht' hfault hbefore _ k hk hblock
    have heq : t' = t := by
      rcases lt_trichotomy t' t with hlt | heq | hgt
      · exact absurd hfault (h.copied.readable t' hlt)
      · exact heq
      · exact absurd h.fault (hbefore t hgt)
    subst heq
    have hone := hall k ((h.block_iff hk).mp hblock) hk
    rwa [← h.block, ← hblock] at hone

variable (htree : WellFormedTree sb m.disk ip) (hfit : off + n ≤ MAXFILE * BSIZE)

include hfit

theorem block_lt : (off + r) / BSIZE < MAXFILE := by
  have hle := h.le
  have hlt := h.lt
  exact block_lt_MAXFILE (by omega)

include htree

-- A block that was there before the call is not among those that have been logged.
theorem not_logged (hthere : addr m.disk ip (leafNode ((off + r) / BSIZE)) ≠ 0) :
    addr m.disk ip (leafNode ((off + r) / BSIZE)) = a ∧ m₁.disk a = m.disk a ∧
      ∃ new, m₁.logged = new ++ m.logged ∧ a ∉ new := by
  have hbn := h.block_lt hfit
  have haddr : addr m.disk ip (leafNode ((off + r) / BSIZE)) = a := by
    rw [← h.grants.keep (leafNode_valid hbn) hthere, h.address]
  obtain ⟨hbs, hmap, hrec⟩ := h.grants.leaf_not_logged htree hbn haddr h.ne_zero
  have hwritten : a ∉ (spans off r).map fun bn => addr m₁.disk ip₂ (leafNode bn) := by
    intro hmem
    obtain ⟨bn, hbn', heq⟩ := mem_map.mp hmem
    obtain ⟨k, hk, rfl⟩ := mem_spans.mp hbn'
    have hle := h.le
    have hlt := h.lt
    have hlow : (off + k) / BSIZE < MAXFILE := block_lt_MAXFILE (by omega)
    have hsame := leafNode_inj (h.grants.tree.inj _ _ (leafNode_valid hlow) (leafNode_valid hbn)
      (by rw [heq]; exact h.ne_zero) (heq.trans h.address.symm))
    rw [← h.block] at hsame
    have hle := (h.block_iff (by omega)).mp hsame
    omega
  obtain ⟨new, hnew, hmem⟩ := h.grants.logged
  refine ⟨haddr, h.grants.frame a hbs hmap hrec hwritten, new, hnew, fun hin => ?_⟩
  rcases (hmem a).mp hin with hin | hin | hin | hin
  · exact hbs hin
  · exact hmap hin
  · exact hrec hin
  · exact hwritten hin

omit htree in
-- The block being copied is still at its node when the loop ends.
theorem address_end : addr m₂.disk ip₂ (leafNode ((off + r) / BSIZE)) = a := by
  obtain ⟨data, hstored⟩ := h.stored
  have hbn := h.block_lt hfit
  rw [hstored, addr_store_leaf h.grants.tree h.grants.reserved hbn h.address h.ne_zero data
    (leafNode_valid hbn), h.address]

omit htree in
-- The contents of the block are the bytes of the file that lie in it.
theorem byteAt_end {p : Nat} (hp : p / BSIZE = (off + r) / BSIZE) :
    byteAt m₂.disk ip₂ p = (m₂.disk a).get (p % BSIZE) := by
  rw [byteAt, hp, h.address_end hfit, if_neg h.ne_zero]

omit htree hfit in
theorem logged_end : m₂.logged = m₁.logged ∧ ∀ c, c ≠ a → m₂.disk c = m₁.disk c := by
  obtain ⟨data, hstored⟩ := h.stored
  rw [hstored]
  exact ⟨rfl, fun c hc => Function.update_of_ne hc _ _⟩

theorem reports_iff (hinum : inum < sb.ninodes) (hip' : ip' = grown ip₂ (off + r))
    (hm' : m' = iupdate sb m₂ inum ip') :
    Reports sb ip m src off r ip' m' ↔ FaultHarmless sb m.disk ip src off n := by
  rw [h.harmless_iff]
  have haddrs : ip'.addrs = ip₂.addrs := by rw [hip', grown_addrs]
  have hsize : ip'.size = max ip.size (off + r) := by rw [hip', grown_size, h.copied.fields]
  obtain ⟨hlog, hother⟩ := h.logged_end
  have hlt := h.lt
  have hsrc : ∀ k < t, src k = some (byteAt m₂.disk ip₂ (off + k)) := by
    intro k hk
    obtain ⟨b, hb⟩ := Option.ne_none_iff_exists'.mp (h.copied.readable k hk)
    rw [h.copied.byteAt_eq (by omega), if_pos (by omega), Nat.add_sub_cancel_left, hb,
      Option.getD_some]
  constructor
  · intro hreports k hr hk
    by_cases hthere : addr m.disk ip (leafNode ((off + r) / BSIZE)) = 0
    · by_cases hin : ip.size ≤ off + k
      · exact .inr ⟨hthere, hin⟩
      · -- a byte of the file that is not reported
        left
        obtain ⟨hwf, hreserved⟩ := h.copied.wellFormedTree
        have hbyte := hreports.bytes (off + k) (by omega) (by omega)
        rw [hm', byteAt_iupdate hwf hreserved hinum haddrs (by omega), patched,
          if_neg (by omega)] at hbyte
        rw [hsrc k hk, hbyte]
    · -- a buffer that is not logged
      left
      obtain ⟨haddr, -, new, hnew, hout⟩ := h.not_logged htree hfit hthere
      obtain ⟨new', hnew', hin⟩ := hreports.logged
      have hlogged : m'.logged = (IBLOCK sb inum :: new) ++ m.logged := by
        rw [hm']
        exact congrArg _ (hlog.trans hnew)
      have heq := append_cancel_right (hnew'.symm.trans hlogged)
      have hdata := (leaf_data htree (h.block_lt hfit) haddr h.ne_zero).1
      have hlow := sb.IBLOCK_lt_bmapstart hinum
      have hbm := sb.bmapstart_le_data
      have hsame : m'.disk a = m.disk a := by
        by_contra hchanged
        have hmem := hin a hchanged
        rw [heq, mem_cons] at hmem
        exact hmem.elim (fun heq => by omega) hout
      have hend : m₂.disk a = m.disk a := by
        rw [← hsame, hm', iupdate_high sb m₂ hinum ip' a (by omega)]
      have hblock : (off + k) / BSIZE = (off + r) / BSIZE := by
        rw [(h.block_iff hk).mpr hr, h.block]
      rw [hsrc k hk, h.byteAt_end hfit hblock, hend, byteAt, hblock, if_neg hthere, haddr]
  · intro hharmless
    refine reports_of h.copied hinum hip' hm' (fun p hp hmax => ?_) ?_
    · unfold patched
      by_cases hin : off + r ≤ p ∧ p < off + t
      · -- moved but not reported
        rw [if_pos (by omega), if_neg (by omega)]
        have hone := hharmless (p - off) (by omega) (by omega)
        rw [Nat.add_sub_of_le (by omega)] at hone
        rcases hone with hsame | ⟨-, hbeyond⟩
        · rw [hsame, Option.getD_some]
        · omega
      · have hle := h.le
        by_cases hrange : off ≤ p ∧ p < off + r
        · rw [if_pos (by omega), if_pos hrange]
        · rw [if_neg (by omega), if_neg hrange]
    · by_cases hthere : addr m.disk ip (leafNode ((off + r) / BSIZE)) = 0
      · -- the block is new, and so logged
        obtain ⟨new, hnew, hin⟩ := h.grants.changed_logged
        refine ⟨new, hlog.trans hnew, fun c hc => ?_⟩
        by_cases hca : c = a
        · obtain ⟨new', hnew', hmem⟩ := h.grants.logged
          rw [append_cancel_right (hnew.symm.trans hnew'), hmem, hca, ← h.address]
          refine .inl (h.grants.here _ ?_).2
          by_contra hout
          have helse := h.grants.elsewhere _ (leafNode_valid (h.block_lt hfit)) hout
          rw [hthere, h.address] at helse
          exact h.ne_zero helse
        · exact hin c (by rwa [← hother c hca])
      · -- the block is as it was
        obtain ⟨haddr, hsame, -⟩ := h.not_logged htree hfit hthere
        obtain ⟨new, hnew, hin⟩ := h.grants.changed_logged
        refine ⟨new, hlog.trans hnew, fun c hc => ?_⟩
        by_cases hca : c = a
        · refine absurd ?_ hc
          rw [hca]
          apply Buffer.ext_get
          intro i hi
          have hblock : ((off + r) / BSIZE * BSIZE + i) / BSIZE = (off + r) / BSIZE := by
            simp only [BSIZE] at *
            omega
          have hmod : ((off + r) / BSIZE * BSIZE + i) % BSIZE = i := by
            simp only [BSIZE] at *
            omega
          have hmax : (off + r) / BSIZE * BSIZE + i < MAXFILE * BSIZE := by
            have hbn := h.block_lt hfit
            simp only [BSIZE] at *
            omega
          have hbyte := h.copied.byteAt_eq hmax
          rw [h.byteAt_end hfit hblock, hmod] at hbyte
          have hold : byteAt m.disk ip ((off + r) / BSIZE * BSIZE + i) = (m.disk a).get i := by
            rw [byteAt, hblock, if_neg hthere, haddr, hmod]
          rw [hbyte, ← hold]
          split
          · rename_i hrange
            have hle := (h.block_iff (k := (off + r) / BSIZE * BSIZE + i - off) (by omega)).mp
              (by rw [Nat.add_sub_of_le hrange.1, hblock, h.block])
            rcases hharmless _ hle (by omega) with hone | hone
            · rw [hone, Nat.add_sub_of_le hrange.1, Option.getD_some]
            · exact absurd hone.1 hthere
          · rfl
        · exact hin c (by rwa [← hother c hca])

end Fault

theorem LoopEnd.reports_iff (h : LoopEnd sb src n off ip m r ip₂ m₂)
    (htree : WellFormedTree sb m.disk ip) (hfit : off + n ≤ MAXFILE * BSIZE)
    (hinum : inum < sb.ninodes) (hip' : ip' = grown ip₂ (off + r))
    (hm' : m' = iupdate sb m₂ inum ip') :
    Reports sb ip m src off r ip' m' ↔ FaultHarmless sb m.disk ip src off n := by
  cases h with
  | finished hr hserved =>
    subst hr
    refine iff_of_true ?_ fun t ht hfault => absurd hfault (hserved.copied.readable t ht)
    exact reports_of hserved.copied hinum hip' hm' (fun _ _ _ => rfl) hserved.grants.changed_logged
  | refused href =>
    refine iff_of_true ?_ fun t ht hfault _ hafford => ?_
    · exact reports_of href.copied hinum hip' hm' (fun _ _ _ => rfl) href.grants.changed_logged
    · -- the fault is not reached
      have hle : r ≤ t := by
        by_contra hlt
        exact href.copied.readable t (by omega) hfault
      exact absurd (hafford.mono (by omega)) href.unaffordable
  | faulted hfault => exact hfault.reports_iff htree hfit hinum hip' hm'

/-- A call of `writei` that returns `r ≥ 0` has changed what it reports and logged every buffer it
changed exactly when no copy faults after moving bytes that make a difference. -/
theorem writei_reports_iff (hinum : inum < sb.ninodes) (htree : WellFormedTree sb m.disk ip)
    (hreserved : ∀ b < sb.dataStart, bitOf sb m.disk b = true) (hboot : BootZero m.disk)
    (off n : UInt32)
    (hrun : writei sb m inum ip src off.toNat n.toNat = .ok ((r : Int), ip', m')) :
    Reports sb ip m src off.toNat r ip' m' ↔
      FaultHarmless sb m.disk ip src off.toNat n.toNat := by
  obtain ⟨-, hfit, ip₂, m₂, hend, hip', hm'⟩ := writei_ends htree hreserved hboot n.toNat_lt hrun
  exact hend.reports_iff htree hfit hinum hip' hm'

/-! ## A file of one block -/

/-- A file of one full block, `b`. -/
def fullBlock (b : Nat) : Dinode := { oneBlock 0 b with size := BSIZE }

section FullBlock

variable {b : Nat} (hdata : sb.dataStart ≤ b) (hb : b < sb.size)

include hdata hb

theorem wellFormedTree_fullBlock : WellFormedTree sb (diskWith sb [b]) (fullBlock b) :=
  wellFormedTree_oneBlock (k := 0) (fun c hc => by rw [mem_singleton.mp hc]; exact ⟨hdata, hb⟩)
    (mem_singleton.mpr rfl)

omit hdata in
theorem bootZero_diskWith : BootZero (diskWith sb [b]) := fun j => by
  rw [diskWith_of_not_bitmap (fun c hc => by rw [mem_singleton.mp hc]; exact hb)
    (.inl sb.bmapstart_pos), word_zero]

omit hdata hb in
theorem reserved_diskWith (sb : Superblock) (bs : List Nat) :
    Reserved sb (diskWith sb bs) := fun c hc => by
  rw [bitOf_diskWith, decide_eq_true hc, Bool.true_or]

end FullBlock

theorem writei_reports_fullBlock : ∃ (r : Nat) (ip' : Dinode) (m' : Machine),
    writei mkfsLayout ⟨diskWith mkfsLayout [100], [], []⟩ 1 (fullBlock 100) (fun _ => some 7)
      (UInt32.toNat 0) (UInt32.toNat 2) = .ok ((r : Int), ip', m') ∧
    Reports mkfsLayout (fullBlock 100) ⟨diskWith mkfsLayout [100], [], []⟩ (fun _ => some 7)
      (UInt32.toNat 0) r ip' m' := by
  have href : ¬ Refused BSIZE (UInt32.toNat 0) (UInt32.toNat 2) := by decide
  obtain ⟨r, ip', m', hrun⟩ := writei_returns mkfsLayout ⟨diskWith mkfsLayout [100], [], []⟩ 1
    (fullBlock 100) (fun _ => some 7) (UInt32.toNat_lt 2) href
  refine ⟨r, ip', m', hrun, (writei_reports_iff (m := ⟨diskWith mkfsLayout [100], [], []⟩)
    (by decide) (wellFormedTree_fullBlock (by decide) (by decide)) (reserved_diskWith _ _)
    (bootZero_diskWith (by decide)) 0 2 hrun).mpr ?_⟩
  exact fun _ _ hfault => by cases hfault

/-- The byte `7`, and then an address that is not mapped. -/
def oneByte : Source := fun k => if k = 0 then some 7 else none

-- The byte is moved into the block, where it replaces a zero, and not reported.
theorem writei_fault_unreported : ∃ (r : Nat) (ip' : Dinode) (m' : Machine),
    writei mkfsLayout ⟨diskWith mkfsLayout [100], [], []⟩ 1 (fullBlock 100) oneByte 0 2 =
      .ok ((r : Int), ip', m') ∧
    ¬ Reports mkfsLayout (fullBlock 100) ⟨diskWith mkfsLayout [100], [], []⟩ oneByte 0
      r ip' m' := by
  obtain ⟨r, ip', m', hrun⟩ := writei_returns mkfsLayout ⟨diskWith mkfsLayout [100], [], []⟩ 1
    (fullBlock 100) oneByte (by decide) (show ¬ Refused BSIZE 0 2 by decide)
  have hmoved : (writei mkfsLayout ⟨diskWith mkfsLayout [100], [], []⟩ 1 (fullBlock 100) oneByte 0
      2).toOption.any (fun x => x.1 = 0 ∧ 0 < x.2.1.size ∧
        byteAt x.2.2.disk x.2.1 0 ≠ byteAt (diskWith mkfsLayout [100]) (fullBlock 100) 0) := by
    decide +kernel
  rw [hrun] at hmoved
  obtain ⟨hnone, hsize, hne⟩ := of_decide_eq_true hmoved
  refine ⟨r, ip', m', hrun, fun hreports => hne ?_⟩
  rw [hreports.bytes 0 hsize (by decide), patched, if_neg (by omega)]

end OsProjects.Kernel
