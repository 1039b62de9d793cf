import Mathlib.Data.List.Nodup

/-!
# Links — walking along linked nodes

A path gives the nodes that are met from one node to another.  A circular list is a path from a node
back to itself; it may be entered at any of its nodes.
-/

namespace OsProjects.Lib

variable {α : Type*} {next next' : α → α} {l m : List α} {a b p q r : α} {stop : α → Bool}

/-- From `p` the links lead through the nodes `l`, in this order, to `q`. -/
def Path (next : α → α) : α → List α → α → Prop
  | p, [], q => p = q
  | p, a :: l, q => p = a ∧ Path next (next a) l q

@[simp] theorem path_nil : Path next p [] q ↔ p = q := Iff.rfl

@[simp] theorem path_cons : Path next p (a :: l) q ↔ p = a ∧ Path next (next a) l q := Iff.rfl

theorem path_append : Path next p (l ++ m) q ↔ ∃ r, Path next p l r ∧ Path next r m q := by
  induction l generalizing p with
  | nil => simp
  | cons a l ih => simp only [List.cons_append, path_cons, ih, exists_and_left, and_assoc]

-- A path only depends on the links of its nodes.
theorem Path.congr (h : Path next p l q) (hsame : ∀ x ∈ l, next' x = next x) :
    Path next' p l q := by
  induction l generalizing p with
  | nil => exact h
  | cons a l ih =>
    refine ⟨h.1, ih ?_ fun x hx => hsame x (List.mem_cons_of_mem a hx)⟩
    rw [hsame a List.mem_cons_self]
    exact h.2

theorem Path.link (h : Path next p (l ++ a :: b :: m) q) : next a = b := by
  obtain ⟨r, -, -, hrest⟩ := path_append.mp h
  exact hrest.1

theorem Path.last_link (h : Path next p (l ++ [a]) q) : next a = q := by
  obtain ⟨r, -, -, hrest⟩ := path_append.mp h
  exact hrest

-- The last node met leads to the end.
theorem Path.next_getLastD (h : Path next (next p) l q) : next (l.getLastD p) = q := by
  induction l generalizing p with
  | nil => exact h
  | cons a l ih =>
    rw [List.getLastD_cons]
    exact ih h.2

-- A circle entered at another of its nodes.
theorem Path.rotate (h : Path next p (l ++ a :: m) p) : Path next a (a :: m ++ l) a := by
  obtain ⟨r, hl, hr, hm⟩ := path_append.mp h
  rw [hr] at hl
  exact path_append.mpr ⟨p, ⟨rfl, hm⟩, hl⟩

-- The link of `a` is changed, and the path goes on from there.
theorem Path.relink (h : Path next p (l ++ [a]) b) (ha : next' a = r)
    (hl : ∀ x ∈ l, next' x = next x) (hm : Path next' r m q) : Path next' p (l ++ [a] ++ m) q := by
  obtain ⟨r', hbefore, hr', -⟩ := path_append.mp h
  exact path_append.mpr ⟨r, path_append.mpr ⟨r', hbefore.congr hl, hr', ha⟩, hm⟩

theorem Path.map_next (h : Path next p (a :: l) q) : (a :: l).map next = l ++ [q] := by
  induction l generalizing p a with
  | nil => rw [List.map_singleton, h.2, List.nil_append]
  | cons b l ih => rw [List.map_cons, ih h.2, h.2.1, List.cons_append]

-- In a circle no two nodes have the same successor.
theorem Path.next_inj (h : Path next p (a :: l) a) (hnodup : (a :: l).Nodup) {x y : α}
    (hx : x ∈ a :: l) (hy : y ∈ a :: l) (hxy : next x = next y) : x = y := by
  refine List.inj_on_of_nodup_map ?_ hx hy hxy
  rw [h.map_next]
  exact (List.perm_append_singleton a l).nodup_iff.mpr hnodup

/-- Follow the links to the first node that satisfies `stop`; `none` when the fuel does not last. -/
def search (next : α → α) (stop : α → Bool) : Nat → α → Option α
  | 0, _ => none
  | fuel + 1, p => if stop p then some p else search next stop fuel (next p)

theorem Path.search_eq (h : Path next p l q) (hfind : l.find? stop = some a)
    {fuel : Nat} (hfuel : l.length ≤ fuel) : search next stop fuel p = some a := by
  induction l generalizing p fuel with
  | nil => cases hfind
  | cons b l ih =>
    obtain ⟨rfl, hrest⟩ := h
    cases fuel with
    | zero => simp at hfuel
    | succ fuel =>
      rw [search]
      rw [List.find?_cons] at hfind
      cases hstop : stop p with
      | true =>
        rw [hstop] at hfind
        rwa [if_pos rfl]
      | false =>
        rw [hstop] at hfind
        rw [if_neg (by simp)]
        exact ih hrest hfind (by simpa using hfuel)

theorem search_mono {fuel fuel' : Nat} (h : search next stop fuel p = some a)
    (hle : fuel ≤ fuel') : search next stop fuel' p = some a := by
  induction fuel generalizing p fuel' with
  | zero => cases h
  | succ fuel ih =>
    cases fuel' with
    | zero => omega
    | succ fuel' =>
      rw [search] at h ⊢
      split at h
      · rwa [if_pos ‹_›]
      · rw [if_neg ‹_›]
        exact ih h (by omega)

theorem find?_eq_of_unique (ha : a ∈ l) (hstop : stop a = true)
    (honly : ∀ x ∈ l, stop x = true → x = a) : l.find? stop = some a := by
  cases hfind : l.find? stop with
  | none => exact absurd hstop (List.find?_eq_none.mp hfind a ha)
  | some x => rw [honly x (List.mem_of_find?_eq_some hfind) (List.find?_some hfind)]

end OsProjects.Lib
