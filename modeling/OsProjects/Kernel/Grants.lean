import OsProjects.Kernel.Placement
import Mathlib.Data.List.Infix

/-!
# Grants — which blocks `bmap` obtains, and where they go

`balloc` hands out the clear bits in ascending order, and `bmap` asks for the blocks that are
missing on the way to a leaf from the top down.  So what a sequence of calls obtains, where it is
recorded and which buffers are logged for it can be read off the state before the calls.
-/

namespace OsProjects.Kernel

open Lib Function List

variable {sb : Superblock} {m m₁ m' : Machine} {ip ip₁ ip' : Dinode} {d : Disk} {n : Node} {b : Nat}
  {bs written : List Nat}

/-- The blocks with a clear bit, in the order in which `balloc` takes them. -/
def freeBlocks (sb : Superblock) (d : Disk) : List Nat :=
  (List.range sb.size).filter fun b => !bitOf sb d b

theorem mem_freeBlocks : b ∈ freeBlocks sb d ↔ b < sb.size ∧ bitOf sb d b = false := by
  rw [freeBlocks, mem_filter, mem_range, Bool.not_eq_true']

theorem nodup_freeBlocks (sb : Superblock) (d : Disk) : (freeBlocks sb d).Nodup :=
  nodup_range.filter _

theorem findFree_eq_head? (sb : Superblock) (d : Disk) :
    findFree sb d = (freeBlocks sb d).head? := by
  rw [freeBlocks, List.head?_filter]
  symm
  cases hfind : findFree sb d with
  | none =>
    apply List.find?_eq_none.mpr
    intro b hb
    simp [findFree_none hfind b (mem_range.mp hb)]
  | some b =>
    obtain ⟨hlt, hclear, hbefore⟩ := findFree_some hfind
    apply List.find?_range_eq_some.mpr
    exact ⟨by simp [hclear], mem_range.mpr hlt, fun c hc => by simp [hbefore c hc]⟩

/-- `balloc` has handed out the block `b`. -/
structure HandsOut (sb : Superblock) (m m' : Machine) (b : Nat) : Prop where
  alloc : Alloc sb m.disk m'.disk b
  free : freeBlocks sb m.disk = b :: freeBlocks sb m'.disk
  logged : m'.logged = b :: BBLOCK sb b :: m.logged
  frame : ∀ c, c ≠ b → c ≠ BBLOCK sb b → m'.disk c = m.disk c

theorem Alloc.freeBlocks_eq {d' : Disk} (h : Alloc sb d d' b) :
    freeBlocks sb d' = (freeBlocks sb d).filter (· ≠ b) := by
  rw [freeBlocks, freeBlocks, filter_filter]
  apply filter_congr
  intro c hc
  rw [h.bits c (mem_range.mp hc), Bool.not_or, Bool.and_comm]
  congr 1
  by_cases hbc : b = c
  · simp [hbc]
  · have hcb : c ≠ b := fun heq => hbc heq.symm
    simp [hbc, hcb]

theorem balloc_handsOut (hreserved : Reserved sb m.disk)
    (hfree : freeBlocks sb m.disk = b :: bs) :
    ∃ m', balloc sb m = (b, m') ∧ HandsOut sb m m' b := by
  have hfind : findFree sb m.disk = some b := by rw [findFree_eq_head?, hfree, List.head?_cons]
  have hballoc : balloc sb m = (b, bzero ((m.store (BBLOCK sb b)
      ((m.disk (BBLOCK sb b)).setBit (b % BPB))).logWrite (BBLOCK sb b)) b) := by
    rw [balloc, hfind]
  rcases balloc_cases sb m hreserved with ⟨b', m', heq, halloc, -⟩ | ⟨-, hfull⟩
  · have hsame := heq
    rw [hballoc] at hsame
    cases hsame
    refine ⟨_, hballoc, halloc, ?_, rfl, fun c hc hc' => ?_⟩
    · have hnodup := nodup_freeBlocks sb m.disk
      rw [hfree, nodup_cons] at hnodup
      rw [halloc.freeBlocks_eq, hfree, filter_cons_of_neg (by simp), filter_eq_self.mpr]
      intro c hc
      simp only [ne_eq, decide_not, Bool.not_eq_eq_eq_not, Bool.not_true, decide_eq_false_iff_not]
      rintro rfl
      exact hnodup.1 hc
    · change update (update m.disk _ _) _ _ c = _
      rw [update_of_ne hc, update_of_ne hc']
  · have hclear := (mem_freeBlocks.mp (hfree ▸ mem_cons_self : b ∈ freeBlocks sb m.disk))
    rw [hfull b hclear.1] at hclear
    exact absurd hclear.2 (by decide)

theorem balloc_none (hfree : freeBlocks sb m.disk = []) :
    balloc sb m = (0, m.printf outOfBlocks) := by
  rw [balloc, findFree_eq_head?, hfree]
  rfl

/-! ## The nodes a call passes -/

/-- The node above; a slot of `addrs[]` has none. -/
def Node.parent (n : Node) : Node := ⟨n.slot, n.path.dropLast⟩

/-- The nodes on the way to block `bn`, from the top. -/
def pathNodes (bn : Nat) : List Node := (leafNode bn).path.inits.map (Node.mk (leafNode bn).slot)

/-- The nodes among `ns` that have no block, each at its first place. -/
def missing (d : Disk) (ip : Dinode) : List Node → List Node
  | [] => []
  | n :: ns =>
    if addr d ip n = 0 then n :: (missing d ip ns).filter (· ≠ n) else missing d ip ns

theorem mem_missing {ns : List Node} : n ∈ missing d ip ns ↔ n ∈ ns ∧ addr d ip n = 0 := by
  induction ns with
  | nil => simp [missing]
  | cons n' ns ih =>
    rw [missing]
    split
    next hzero =>
      rw [mem_cons, mem_filter, ih, mem_cons]
      by_cases hn : n = n'
      · simp [hn, hzero]
      · simp [hn]
    next hzero =>
      rw [ih, mem_cons]
      constructor
      · rintro ⟨hmem, haddr⟩
        exact ⟨.inr hmem, haddr⟩
      · rintro ⟨rfl | hmem, haddr⟩
        · exact absurd haddr hzero
        · exact ⟨hmem, haddr⟩

theorem missing_append (d : Disk) (ip : Dinode) (ns ns' : List Node) : missing d ip (ns ++ ns') =
      missing d ip ns ++ (missing d ip ns').filter (· ∉ missing d ip ns) := by
  induction ns with
  | nil => simp [missing]
  | cons n ns ih =>
    rw [cons_append, missing, missing]
    by_cases hzero : addr d ip n = 0
    · rw [if_pos hzero, if_pos hzero, ih, filter_append, filter_filter,
        cons_append]
      congr 2
      apply filter_congr
      intro n' _
      by_cases hn : n' = n
      · simp [hn]
      · simp [hn]
    · rw [if_neg hzero, if_neg hzero, ih]

-- Once the nodes `got` have blocks, the others among `ns` are what is missing.
theorem missing_of_got {d' : Disk} {got ns : List Node}
    (h : ∀ n ∈ ns, addr d' ip' n = 0 ↔ addr d ip n = 0 ∧ n ∉ got) :
    missing d' ip' ns = (missing d ip ns).filter (· ∉ got) := by
  induction ns with
  | nil => rfl
  | cons n ns ih =>
    have hrest := ih fun n' hn' => h n' (mem_cons_of_mem n hn')
    have hn := h n mem_cons_self
    rw [missing, missing]
    by_cases hzero : addr d ip n = 0
    · rw [if_pos hzero]
      by_cases hgot : n ∈ got
      · rw [if_neg fun hnew => (hn.mp hnew).2 hgot, hrest, filter_cons_of_neg (by simpa),
          filter_filter]
        apply filter_congr
        intro n' _
        by_cases hn' : n' = n
        · simp [hn', hgot]
        · simp [hn']
      · rw [if_pos (hn.mpr ⟨hzero, hgot⟩), hrest, filter_cons_of_pos (by simpa),
          filter_filter, filter_filter]
        simp only [Bool.and_comm]
    · rw [if_neg hzero, if_neg fun hnew => hzero (hn.mp hnew).1, hrest]

theorem missing_singleton (d : Disk) (ip : Dinode) (n : Node) :
    missing d ip [n] = if addr d ip n = 0 then [n] else [] := by
  simp only [missing, filter_nil]

/-! ## Grants -/

/-- The blocks in which the addresses of the nodes `ns` are recorded. -/
def recordBlocks (d : Disk) (ip : Dinode) (ns : List Node) : List Nat :=
  (ns.filter (·.path ≠ [])).map fun n => addr d ip n.parent

/-- The nodes `ns` have received the blocks `bs`, the first free ones; besides the buffers that this
takes, the blocks `written` have been logged. -/
structure Grants (sb : Superblock) (ip : Dinode) (m : Machine) (ip' : Dinode) (m' : Machine)
    (ns : List Node) (bs written : List Nat) : Prop where
  tree : WellFormedTree sb m'.disk ip'
  reserved : Reserved sb m'.disk
  low : ∀ c < sb.bmapstart, m'.disk c = m.disk c
  free : freeBlocks sb m.disk = bs ++ freeBlocks sb m'.disk
  length : ns.length = bs.length
  empty : ∀ n ∈ ns, n.Valid ∧ addr m.disk ip n = 0
  elsewhere : ∀ n : Node, n.Valid → n ∉ ns → addr m'.disk ip' n = addr m.disk ip n
  here : ∀ n ∈ ns, addr m'.disk ip' n ≠ 0 ∧ addr m'.disk ip' n ∈ bs
  logged : ∃ new, m'.logged = new ++ m.logged ∧ ∀ c, c ∈ new ↔
    c ∈ bs ∨ c ∈ bs.map (BBLOCK sb) ∨ c ∈ recordBlocks m'.disk ip' ns ∨ c ∈ written
  frame : ∀ c, c ∉ bs → c ∉ bs.map (BBLOCK sb) → c ∉ recordBlocks m'.disk ip' ns → c ∉ written →
    m'.disk c = m.disk c

theorem addr_parent_ne_zero (hpath : n.path ≠ []) (h : addr d ip n ≠ 0) :
    addr d ip n.parent ≠ 0 := by
  obtain ⟨slot, q⟩ := n
  change q ≠ [] at hpath
  change addr d ip ⟨slot, q.dropLast⟩ ≠ 0
  intro hzero
  apply h
  rw [← dropLast_append_getLast hpath, addr_snoc, hzero, entry, if_pos rfl]

theorem Node.Valid.parent (h : n.Valid) : n.parent.Valid :=
  ⟨le_trans (by rw [Node.parent, length_dropLast]; omega) h.depth,
    fun j hj => h.index j (dropLast_subset _ hj)⟩

namespace Grants

variable {ns ns₁ : List Node} {bs bs₁ written written₁ : List Nat}

theorem refl (htree : WellFormedTree sb m.disk ip)
    (hreserved : Reserved sb m.disk) : Grants sb ip m ip m [] [] [] := by
  refine ⟨htree, hreserved, fun _ _ => rfl, rfl, rfl, ?_, fun _ _ _ => rfl, ?_, ⟨[], rfl, ?_⟩,
    fun _ _ _ _ _ => rfl⟩
  · exact fun _ hn => by cases hn
  · exact fun _ hn => by cases hn
  · intro c
    simp [recordBlocks]

-- Addresses that are there stay.
theorem keep (h : Grants sb ip m ip' m' ns bs written) (hn : n.Valid)
    (hne : addr m.disk ip n ≠ 0) : addr m'.disk ip' n = addr m.disk ip n :=
  h.elsewhere n hn fun hmem => hne (h.empty n hmem).2

theorem zero_iff (h : Grants sb ip m ip' m' ns bs written) (hn : n.Valid) :
    addr m'.disk ip' n = 0 ↔ addr m.disk ip n = 0 ∧ n ∉ ns := by
  by_cases hmem : n ∈ ns
  · exact ⟨fun hzero => absurd hzero (h.here n hmem).1, fun hboth => absurd hmem hboth.2⟩
  · rw [h.elsewhere n hn hmem]
    exact ⟨fun hzero => ⟨hzero, hmem⟩, fun hboth => hboth.1⟩

-- What was recorded stays recorded where it was.
theorem recordBlocks_eq (h₁ : Grants sb ip m ip₁ m₁ ns₁ bs₁ written₁)
    (h : Grants sb ip₁ m₁ ip' m' ns bs written) :
    recordBlocks m'.disk ip' ns₁ = recordBlocks m₁.disk ip₁ ns₁ := by
  apply map_congr_left
  intro n hn
  obtain ⟨hn, hpath⟩ := mem_filter.mp hn
  have hpath : n.path ≠ [] := by simpa using hpath
  exact h.keep (h₁.empty n hn).1.parent (addr_parent_ne_zero hpath (h₁.here n hn).1)

theorem trans (h₁ : Grants sb ip m ip₁ m₁ ns₁ bs₁ written₁)
    (h : Grants sb ip₁ m₁ ip' m' ns bs written) :
    Grants sb ip m ip' m' (ns₁ ++ ns) (bs₁ ++ bs) (written₁ ++ written) := by
  have hrecord := h₁.recordBlocks_eq h
  have hsplit : recordBlocks m'.disk ip' (ns₁ ++ ns) =
      recordBlocks m₁.disk ip₁ ns₁ ++ recordBlocks m'.disk ip' ns := by
    rw [← hrecord, recordBlocks, filter_append, map_append]
    rfl
  refine ⟨h.tree, h.reserved, fun c hc => (h.low c hc).trans (h₁.low c hc), ?_, ?_, fun n hn => ?_,
    fun n hn hout => ?_, fun n hn => ?_, ?_, fun c hbs hmap hrec hwritten => ?_⟩
  · rw [h₁.free, h.free, append_assoc]
  · rw [length_append, length_append, h₁.length, h.length]
  · rcases mem_append.mp hn with hn | hn
    · exact h₁.empty n hn
    · have hempty := h.empty n hn
      exact ⟨hempty.1, ((h₁.zero_iff hempty.1).mp hempty.2).1⟩
  · rw [mem_append, not_or] at hout
    rw [h.elsewhere n hn hout.2, h₁.elsewhere n hn hout.1]
  · rw [mem_append]
    rcases mem_append.mp hn with hn | hn
    · rw [h.keep (h₁.empty n hn).1 (h₁.here n hn).1]
      exact ⟨(h₁.here n hn).1, .inl (h₁.here n hn).2⟩
    · exact ⟨(h.here n hn).1, .inr (h.here n hn).2⟩
  · obtain ⟨new1, hnew1, hmem1⟩ := h₁.logged
    obtain ⟨new, hnew, hmem⟩ := h.logged
    refine ⟨new ++ new1, by rw [hnew, hnew1, append_assoc], fun c => ?_⟩
    rw [hsplit, map_append]
    simp only [mem_append, hmem, hmem1]
    tauto
  · rw [hsplit] at hrec
    simp only [map_append, mem_append, not_or] at hbs hmap hrec hwritten
    rw [h.frame c hbs.2 hmap.2 hrec.2 hwritten.2, h₁.frame c hbs.1 hmap.1 hrec.1 hwritten.1]

end Grants

theorem Placed.grants {new : Node} (h : Placed sb ip m ip' m' new b) (hvalid : new.Valid)
    (hout : HandsOut sb m m₁ b) (hfree : freeBlocks sb m'.disk = freeBlocks sb m₁.disk)
    (hlogged : m'.logged = recordBlocks m'.disk ip' [new] ++ m₁.logged)
    (hframe : ∀ c, c ∉ recordBlocks m'.disk ip' [new] → m'.disk c = m₁.disk c) :
    Grants sb ip m ip' m' [new] [b] [] := by
  refine ⟨h.tree, h.reserved, h.low, ?_, rfl, fun n hn => ?_, fun n hn hnew => ?_, fun n hn => ?_,
    ⟨recordBlocks m'.disk ip' [new] ++ [b, BBLOCK sb b], ?_, fun c => ?_⟩,
    fun c hb hmap hrec _ => ?_⟩
  · rw [hfree, hout.free]
    rfl
  · rw [mem_singleton.mp hn]
    exact ⟨hvalid, h.empty⟩
  · exact h.elsewhere n hn fun heq => hnew (mem_singleton.mpr heq)
  · rw [mem_singleton.mp hn, h.here]
    exact ⟨hout.alloc.ne_zero, mem_cons_self⟩
  · rw [hlogged, hout.logged, append_assoc]
    rfl
  · simp only [mem_append, mem_cons, not_mem_nil, or_false, map_cons,
      map_nil]
    tauto
  · rw [hframe c hrec]
    exact hout.frame c (fun heq => hb (mem_singleton.mpr heq))
      fun heq => hmap (mem_singleton.mpr heq)

theorem grants_printf (htree : WellFormedTree sb m.disk ip)
    (hreserved : Reserved sb m.disk) (line : String) :
    Grants sb ip m ip (m.printf line) [] [] [] := by
  have h := Grants.refl htree hreserved
  exact ⟨h.tree, h.reserved, h.low, h.free, h.length, h.empty, h.elsewhere, h.here, h.logged,
    h.frame⟩

/-! ## What `bmap` obtains -/

/-- The nodes `ns` have been asked for in turn, and `ok` says whether all could be had. -/
structure Fills (sb : Superblock) (ip : Dinode) (m : Machine) (ns : List Node) (ip' : Dinode)
    (m' : Machine) (ok : Prop) : Prop where
  grants : Grants sb ip m ip' m'
    ((missing m.disk ip ns).take (freeBlocks sb m.disk).length)
    ((freeBlocks sb m.disk).take (missing m.disk ip ns).length) []
  ok_iff : ok ↔ (missing m.disk ip ns).length ≤ (freeBlocks sb m.disk).length

namespace Fills

variable {ns ns₁ : List Node} {ok : Prop}

theorem all (h : Fills sb ip m ns ip' m' ok) (hok : ok) :
    Grants sb ip m ip' m' (missing m.disk ip ns)
      ((freeBlocks sb m.disk).take (missing m.disk ip ns).length) [] := by
  have hgrants := h.grants
  rwa [take_of_length_le (h.ok_iff.mp hok)] at hgrants

-- A refused request uses up the free blocks.
theorem refused (h : Fills sb ip m ns ip' m' ok) (hok : ¬ ok) :
    Grants sb ip m ip' m' ((missing m.disk ip ns).take (freeBlocks sb m.disk).length)
      (freeBlocks sb m.disk) [] := by
  have hgrants := h.grants
  rwa [take_of_length_le (i := (missing m.disk ip ns).length)
    (by have := mt h.ok_iff.mpr hok; omega)] at hgrants

end Fills

-- What is missing of `ns` after all of `ns₁` has been had.
theorem Grants.missing_append {ns ns₁ : List Node}
    (h : Grants sb ip m ip₁ m₁ (missing m.disk ip ns₁) bs written) (hvalid : ∀ n ∈ ns, n.Valid) :
    missing m.disk ip (ns₁ ++ ns) = missing m.disk ip ns₁ ++ missing m₁.disk ip₁ ns := by
  rw [Kernel.missing_append, missing_of_got fun n hn => h.zero_iff (hvalid n hn)]

-- The requests for `ns` after all of `ns₁` has been had.
theorem Grants.after {ns ns₁ : List Node} {ok : Prop}
    (h₁ : Grants sb ip m ip₁ m₁ (missing m.disk ip ns₁)
      ((freeBlocks sb m.disk).take (missing m.disk ip ns₁).length) written)
    (hvalid : ∀ n ∈ ns, n.Valid) (h : Fills sb ip₁ m₁ ns ip' m' ok) : Grants sb ip m ip' m'
        ((missing m.disk ip (ns₁ ++ ns)).take (freeBlocks sb m.disk).length)
        ((freeBlocks sb m.disk).take (missing m.disk ip (ns₁ ++ ns)).length) written ∧
      (ok ↔ (missing m.disk ip (ns₁ ++ ns)).length ≤ (freeBlocks sb m.disk).length) := by
  have hfree := h₁.free
  have hlen := h₁.length
  generalize hF : freeBlocks sb m.disk = F at *
  generalize hF1 : freeBlocks sb m₁.disk = F1 at *
  have hgrants := h₁.trans h.grants
  have hsplit := h₁.missing_append hvalid
  have hok := h.ok_iff
  rw [append_nil, hF1] at hgrants
  rw [hF1] at hok
  rw [hsplit]
  generalize missing m.disk ip ns₁ = M1 at *
  generalize missing m₁.disk ip₁ ns = M at *
  have hcount : F.length = M1.length + F1.length := by
    have hl := congrArg List.length hfree
    rwa [length_append, ← hlen] at hl
  have hdrop : F1 = F.drop M1.length := by
    rw [← append_cancel_left_eq (F.take M1.length), take_append_drop]
    exact hfree.symm
  have hbs : F.take (M1 ++ M).length = F.take M1.length ++ F1.take M.length := by
    rw [length_append, take_add, hdrop]
  have hns : (M1 ++ M).take F.length = M1 ++ M.take F1.length := by
    rw [hcount, take_length_add_append]
  rw [hns, hbs]
  refine ⟨hgrants, hok.trans ?_⟩
  rw [length_append, hcount]
  omega

namespace Fills

variable {ns ns₁ : List Node} {ok ok₁ : Prop}

theorem chain (h₁ : Fills sb ip m ns₁ ip₁ m₁ ok₁) (hok₁ : ok₁) (hvalid : ∀ n ∈ ns, n.Valid)
    (h : Fills sb ip₁ m₁ ns ip' m' ok) : Fills sb ip m (ns₁ ++ ns) ip' m' ok := by
  obtain ⟨hgrants, hok⟩ := (h₁.all hok₁).after hvalid h
  exact ⟨hgrants, hok⟩

-- After a refusal nothing more is asked for, but something may be printed.
theorem stop (h₁ : Fills sb ip m ns₁ ip₁ m₁ ok₁) (hok₁ : ¬ ok₁) (hok : ¬ ok)
    (h : Grants sb ip₁ m₁ ip' m' [] [] []) (ns : List Node) :
    Fills sb ip m (ns₁ ++ ns) ip' m' ok := by
  have hlt := mt h₁.ok_iff.mpr hok₁
  have hgrants := (h₁.refused hok₁).trans h
  rw [append_nil, append_nil, append_nil] at hgrants
  have hlen : (freeBlocks sb m.disk).length < (missing m.disk ip (ns₁ ++ ns)).length := by
    rw [missing_append, length_append]
    omega
  refine ⟨?_, iff_of_false hok (by omega)⟩
  rw [take_of_length_le (le_of_lt hlen), missing_append,
    take_append_of_le_length (by omega)]
  exact hgrants

theorem congr (h : Fills sb ip m ns ip' m' ok₁) (hok : ok ↔ ok₁) : Fills sb ip m ns ip' m' ok :=
  ⟨h.grants, hok.trans h.ok_iff⟩

end Fills

section Calls

variable (htree : WellFormedTree sb m.disk ip)
  (hreserved : Reserved sb m.disk) {slot : Fin (NDIRECT + 2)}

include htree hreserved

-- The node is there already.
theorem fills_present (hn : addr m.disk ip n ≠ 0) : Fills sb ip m [n] ip m True := by
  have hnone : missing m.disk ip [n] = [] := by rw [missing_singleton, if_neg hn]
  refine ⟨?_, ?_⟩
  · rw [hnone, take_nil, length_nil, take_zero]
    exact Grants.refl htree hreserved
  · rw [hnone]
    exact iff_of_true trivial (Nat.zero_le _)

theorem fills_refused (hn : addr m.disk ip n = 0) (hfree : freeBlocks sb m.disk = []) :
    Fills sb ip m [n] ip (m.printf outOfBlocks) False := by
  have hone : missing m.disk ip [n] = [n] := by rw [missing_singleton, if_pos hn]
  refine ⟨?_, ?_⟩
  · rw [hone, hfree]
    exact grants_printf htree hreserved outOfBlocks
  · rw [hone, hfree]
    exact iff_of_false not_false (by simp)

omit htree hreserved in
theorem fills_granted (hn : addr m.disk ip n = 0)
    (hfree : freeBlocks sb m.disk = b :: bs) (h : Grants sb ip m ip' m' [n] [b] []) :
    Fills sb ip m [n] ip' m' True := by
  have hone : missing m.disk ip [n] = [n] := by rw [missing_singleton, if_pos hn]
  refine ⟨?_, ?_⟩
  · rw [hone, hfree, length_cons, take_succ_cons, take_nil, length_singleton,
      take_succ_cons, take_zero]
    exact h
  · rw [hone, hfree]
    exact iff_of_true trivial (Nat.succ_le_succ (Nat.zero_le _))

theorem bmapSlot_fills {k : Fin (NDIRECT + 2)} {a : Nat}
    (hrun : bmapSlot sb m ip k = (a, ip', m')) :
    Fills sb ip m [⟨k, []⟩] ip' m' (a ≠ 0) ∧ addr m'.disk ip' ⟨k, []⟩ = a := by
  unfold bmapSlot at hrun
  split at hrun
  next hempty =>
    cases hfree : freeBlocks sb m.disk with
    | nil =>
      rw [balloc_none hfree] at hrun
      cases hrun
      exact ⟨(fills_refused htree hreserved (n := ⟨k, []⟩) hempty hfree).congr (by simp), hempty⟩
    | cons b bs =>
      obtain ⟨m₁, hballoc, hout⟩ := balloc_handsOut hreserved hfree
      have hne := hout.alloc.ne_zero
      have hplaced := placed_slot htree hreserved hout.alloc hempty
      rw [hballoc] at hrun
      simp only [if_neg hne] at hrun
      cases hrun
      have hgrants := hplaced.grants (valid_root k) hout rfl rfl fun _ _ => rfl
      exact ⟨(fills_granted (n := ⟨k, []⟩) hempty hfree hgrants).congr (by simp [hne]),
        hplaced.here⟩
  next hempty =>
    cases hrun
    exact ⟨(fills_present htree hreserved (n := ⟨k, []⟩) hempty).congr (by simp [hempty]), rfl⟩

theorem bmapEntry_fills {q : List Nat} {j a : Nat}
    (hvalid : Node.Valid ⟨slot, q ++ [j]⟩) (hparent : addr m.disk ip ⟨slot, q⟩ ≠ 0)
    (hrun : bmapEntry sb m (addr m.disk ip ⟨slot, q⟩) j = (a, m')) :
    Fills sb ip m [⟨slot, q ++ [j]⟩] ip m' (a ≠ 0) ∧ addr m'.disk ip ⟨slot, q ++ [j]⟩ = a := by
  have haddr : addr m.disk ip ⟨slot, q ++ [j]⟩ = word (m.disk (addr m.disk ip ⟨slot, q⟩)) j := by
    rw [addr_snoc, entry, if_neg hparent]
  unfold bmapEntry at hrun
  split at hrun
  next hempty =>
    have hnode := haddr.trans hempty
    cases hfree : freeBlocks sb m.disk with
    | nil =>
      rw [balloc_none hfree] at hrun
      cases hrun
      exact ⟨(fills_refused htree hreserved hnode hfree).congr (by simp), hnode⟩
    | cons b bs =>
      obtain ⟨m₁, hballoc, hout⟩ := balloc_handsOut hreserved hfree
      have hne := hout.alloc.ne_zero
      have hused := htree.used_of_own _ hvalid.of_snoc.1 hparent
      rw [hballoc] at hrun
      simp only [if_neg hne, Prod.mk.injEq] at hrun
      obtain ⟨rfl, hm'⟩ := hrun
      have hdisk : m'.disk = update m₁.disk (addr m.disk ip ⟨slot, q⟩)
          (setWord (m₁.disk (addr m.disk ip ⟨slot, q⟩)) j b) := by rw [← hm']; rfl
      have hplaced := placed_entry htree hreserved hout.alloc hvalid hparent hempty hdisk
      have hrecord : recordBlocks m'.disk ip [⟨slot, q ++ [j]⟩] = [addr m.disk ip ⟨slot, q⟩] := by
        have hkeep := hplaced.elsewhere ⟨slot, q⟩ hvalid.of_snoc.1 fun heq => by
          have hlen := congrArg (fun n : Node => n.path.length) heq
          simp at hlen
        rw [recordBlocks, filter_cons_of_pos (by simp), filter_nil, map_singleton,
          Node.parent, dropLast_concat, hkeep]
      have hbits : freeBlocks sb m'.disk = freeBlocks sb m₁.disk := by
        apply filter_congr
        intro c hc
        have hbb := sb.BBLOCK_lt_dataStart (mem_range.mp hc)
        rw [hdisk, bitOf_congr (update_of_ne (by have hdata := hused.1; omega) _ _)]
      have hgrants := hplaced.grants hvalid hout hbits (by rw [hrecord, ← hm']; rfl) fun c hc => by
        rw [hrecord, mem_singleton] at hc
        rw [hdisk, update_of_ne hc]
      exact ⟨(fills_granted hnode hfree hgrants).congr (by simp [hne]), hplaced.here⟩
  next hempty =>
    cases hrun
    rw [← haddr] at hempty
    exact ⟨(fills_present htree hreserved hempty).congr (by simp [← haddr, hempty]), haddr⟩

omit htree hreserved in
theorem valid_pathNodes {bn : Nat} (hbn : bn < MAXFILE) (hn : n ∈ pathNodes bn) : n.Valid := by
  obtain ⟨q, hq, rfl⟩ := mem_map.mp hn
  exact (leafNode_valid hbn).above ((mem_inits q _).mp hq)

theorem fills_nil : Fills sb ip m [] ip m True :=
  ⟨by rw [missing, take_nil, length_nil, take_zero]; exact .refl htree hreserved,
    iff_of_true trivial (Nat.zero_le _)⟩

omit htree hreserved in
-- Where nothing is free and the boot block is zero, the entries below block 0 are not to be had.
theorem bmapEntries_zero (hboot : BootZero m.disk) (hfree : freeBlocks sb m.disk = [])
    (htree : WellFormedTree sb m.disk ip)
    (hreserved : Reserved sb m.disk) (js : List Nat) :
    ∃ m', bmapEntries sb m 0 js = (0, m') ∧ Grants sb ip m ip m' [] [] [] := by
  induction js generalizing m with
  | nil => exact ⟨m, rfl, .refl htree hreserved⟩
  | cons j js ih =>
    obtain ⟨m', hrest, hgrants⟩ := ih (m := m.printf outOfBlocks) hboot hfree htree hreserved
    refine ⟨m', ?_, (grants_printf htree hreserved outOfBlocks).trans hgrants⟩
    rw [bmapEntries, bmapEntry, if_pos (hboot j), balloc_none hfree]
    exact hrest

/-- The nodes below the node `q` of `slot` on the way along `js`. -/
def nodesBelow (slot : Fin (NDIRECT + 2)) (q js : List Nat) : List Node :=
  js.inits.tail.map fun r => ⟨slot, q ++ r⟩

omit htree hreserved in
theorem nodesBelow_cons (slot : Fin (NDIRECT + 2)) (q : List Nat) (j : Nat) (js : List Nat) :
    nodesBelow slot q (j :: js) = [⟨slot, q ++ [j]⟩] ++ nodesBelow slot (q ++ [j]) js := by
  cases js <;> simp [nodesBelow]

theorem bmapEntries_fills (hboot : BootZero m.disk) {q js : List Nat}
    {a a' : Nat} (hvalid : Node.Valid ⟨slot, q ++ js⟩) (haddr : addr m.disk ip ⟨slot, q⟩ = a)
    (ha : a ≠ 0) (hrun : bmapEntries sb m a js = (a', m')) :
    Fills sb ip m (nodesBelow slot q js) ip m' (a' ≠ 0) ∧
      (a' ≠ 0 → addr m'.disk ip ⟨slot, q ++ js⟩ = a') := by
  induction js generalizing q m a with
  | nil =>
    cases hrun
    rw [append_nil]
    exact ⟨(fills_nil htree hreserved).congr (iff_true_intro ha), fun _ => haddr⟩
  | cons j js ih =>
    rw [append_cons] at hvalid ⊢
    rcases hentry : bmapEntry sb m a j with ⟨a1, m1⟩
    rw [bmapEntries, hentry] at hrun
    rw [← haddr] at ha hentry
    obtain ⟨hfills, haddr1⟩ := bmapEntry_fills htree hreserved
      (hvalid.above (prefix_append _ _)) ha hentry
    have hone := hfills.grants
    have hboot1 : BootZero m1.disk := fun k => by rw [hone.low 0 sb.bmapstart_pos, hboot k]
    rw [nodesBelow_cons]
    by_cases ha1 : a1 = 0
    · -- the code goes on with block 0, where it finds nothing and prints once more
      have hfull : freeBlocks sb m1.disk = [] := by
        have hfree := (hfills.refused (not_not.mpr ha1)).free
        simpa using hfree.symm
      obtain ⟨m2, hrest, hgrants⟩ := bmapEntries_zero hboot1 hfull hone.tree hone.reserved js
      rw [ha1] at hrun
      cases hrest.symm.trans hrun
      exact ⟨hfills.stop (not_not.mpr ha1) (by simp) hgrants _, fun hne => absurd rfl hne⟩
    · obtain ⟨hrest, haddr'⟩ := ih hone.tree hone.reserved hboot1 hvalid haddr1 ha1 hrun
      refine ⟨hfills.chain ha1 (fun n hn => ?_) hrest, haddr'⟩
      obtain ⟨r, hr, rfl⟩ := mem_map.mp hn
      exact hvalid.above (prefix_append_right_inj _ |>.mpr
        ((mem_inits r js).mp (mem_of_mem_tail hr)))

theorem bmap_fills (hboot : BootZero m.disk) {bn a : Nat} (hbn : bn < MAXFILE)
    (hrun : bmap sb m ip bn = .ok (a, ip', m')) :
    Fills sb ip m (pathNodes bn) ip' m' (a ≠ 0) ∧ (a ≠ 0 → addr m'.disk ip' (leafNode bn) = a) := by
  have hnodes : pathNodes bn = [⟨(leafNode bn).slot, []⟩] ++
      nodesBelow (leafNode bn).slot [] (leafNode bn).path := by
    unfold pathNodes nodesBelow
    cases (leafNode bn).path <;> rfl
  have hvalid : ∀ n ∈ pathNodes bn, n.Valid := fun _ => valid_pathNodes hbn
  rw [bmap_eq sb m ip hbn, Except.ok.injEq] at hrun
  rw [hnodes] at hvalid ⊢
  rcases hslot : bmapSlot sb m ip (leafNode bn).slot with ⟨a1, ip₁, m₁⟩
  obtain ⟨hfills, haddr⟩ := bmapSlot_fills htree hreserved hslot
  have hone := hfills.grants
  rw [hslot] at hrun
  by_cases ha : a1 = 0
  · simp only [if_pos ha] at hrun
    cases hrun
    exact ⟨hfills.stop (not_not.mpr ha) (by simp) (.refl hone.tree hone.reserved) _,
      fun hne => absurd rfl hne⟩
  · simp only [if_neg ha] at hrun
    cases hrun
    obtain ⟨hrest, haddr'⟩ := bmapEntries_fills hone.tree hone.reserved
      (fun k => by rw [hone.low 0 sb.bmapstart_pos, hboot k]) (leafNode_valid hbn) haddr ha rfl
    exact ⟨hfills.chain ha (fun n hn => hvalid n (mem_append_right _ hn)) hrest, haddr'⟩

end Calls

end OsProjects.Kernel
