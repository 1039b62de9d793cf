import OsProjects.Kernel.Bmap

/-!
# Placement — one block put into the tree of one inode
-/

namespace OsProjects.Kernel

open Lib Function

variable {sb : Superblock} {m m' : Machine} {ip ip' : Dinode}

-- The tree of an inode is a family of one.
theorem WellFormedTree.blocks {d : Disk} (h : WellFormedTree sb d ip)
    (hreserved : Reserved sb d) : Blocks sb (· = 0) (fun _ => ip) d :=
  ⟨⟨fun x hx hne => h.used_of_own x.2 hx.2 hne, fun x y hx hy hne heq =>
    Prod.ext (hx.1.trans hy.1.symm) (h.inj x.2 y.2 hx.2 hy.2 hne heq)⟩, hreserved⟩

/-- The block `b` has been put at the node `new`, which was empty. -/
structure Placed (sb : Superblock) (ip : Dinode) (m : Machine) (ip' : Dinode) (m' : Machine)
    (new : Node) (b : Nat) : Prop where
  tree : WellFormedTree sb m'.disk ip'
  reserved : Reserved sb m'.disk
  low : ∀ c < sb.bmapstart, m'.disk c = m.disk c
  empty : addr m.disk ip new = 0
  elsewhere : ∀ n : Node, n.Valid → n ≠ new → addr m'.disk ip' n = addr m.disk ip n
  here : addr m'.disk ip' new = b

section

variable (htree : WellFormedTree sb m.disk ip)
  (hreserved : Reserved sb m.disk)

include htree hreserved

-- A fresh block in an empty slot.
theorem placed_slot {b : Nat} (halloc : Alloc sb m.disk m'.disk b) {k : Fin (NDIRECT + 2)}
    (hempty : ip.addrs k = 0) :
    Placed sb ip m { ip with addrs := update ip.addrs k b } m' ⟨k, []⟩ b := by
  have hblocks := htree.blocks hreserved
  have hlinked := linked_slot (i := 0) hblocks halloc hempty
  have haddr : ∀ n : Node, n.Valid →
      addr m'.disk { ip with addrs := update ip.addrs k b } n =
        if (0, n) = (0, ⟨k, []⟩) then b else addr m.disk ip n := by
    intro n hn
    have hown := hlinked.address (0, n) ⟨rfl, hn⟩
    change addr m'.disk (update (fun _ => ip) 0 _ 0) n = _ at hown
    rwa [update_self] at hown
  refine ⟨?_, fun c hc => ?_, halloc.low, hempty, fun n hn hne => ?_, ?_⟩
  · have howned := hblocks.owned.alloc hlinked.free hlinked.address hlinked.used
    exact ⟨fun n hn => howned.used_of_own (0, n) ⟨rfl, hn⟩, fun n n' hn hn' hne heq =>
      congrArg Prod.snd (howned.inj (0, n) (0, n') ⟨rfl, hn⟩ ⟨rfl, hn'⟩ hne heq)⟩
  · have hle := sb.dataStart_le_size
    rw [halloc.bits c (by omega), hreserved c hc, Bool.true_or]
  · rw [haddr n hn, if_neg fun heq => hne (congrArg Prod.snd heq)]
  · rw [haddr _ (valid_root k), if_pos rfl]

-- A fresh block in an empty entry of an indirect block.
theorem placed_entry {m₁ : Machine} {b j : Nat} (halloc : Alloc sb m.disk m₁.disk b)
    {slot : Fin (NDIRECT + 2)} {q : List Nat} (hvalid : Node.Valid ⟨slot, q ++ [j]⟩)
    (hparent : addr m.disk ip ⟨slot, q⟩ ≠ 0)
    (hempty : word (m.disk (addr m.disk ip ⟨slot, q⟩)) j = 0)
    (hdisk : m'.disk = update m₁.disk (addr m.disk ip ⟨slot, q⟩)
      (setWord (m₁.disk (addr m.disk ip ⟨slot, q⟩)) j b)) :
    Placed sb ip m ip m' ⟨slot, q ++ [j]⟩ b := by
  have hblocks := htree.blocks hreserved
  have hlinked : Linked sb (· = 0) (fun _ => ip) (fun _ => ip) m.disk m'.disk
      (0, ⟨slot, q ++ [j]⟩) b := by
    rw [hdisk]
    exact linked_entry (i := 0) hblocks rfl halloc hvalid hparent hempty
  have haddr : ∀ n : Node, n.Valid → addr m'.disk ip n =
      if (0, n) = (0, ⟨slot, q ++ [j]⟩) then b else addr m.disk ip n :=
    fun n hn => hlinked.address (0, n) ⟨rfl, hn⟩
  refine ⟨?_, fun c hc => ?_, hlinked.low, hlinked.empty, fun n hn hne => ?_, ?_⟩
  · have howned := hblocks.owned.alloc hlinked.free hlinked.address hlinked.used
    exact ⟨fun n hn => howned.used_of_own (0, n) ⟨rfl, hn⟩, fun n n' hn hn' hne heq =>
      congrArg Prod.snd (howned.inj (0, n) (0, n') ⟨rfl, hn⟩ ⟨rfl, hn'⟩ hne heq)⟩
  · have hle := sb.dataStart_le_size
    rw [hlinked.bits c (by omega), hreserved c hc, Bool.true_or]
  · rw [haddr n hn, if_neg fun heq => hne (congrArg Prod.snd heq)]
  · rw [haddr _ hvalid, if_pos rfl]

end

end OsProjects.Kernel
