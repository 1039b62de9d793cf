import Mathlib.Data.List.Basic
import Mathlib.Logic.Function.Basic

/-!
# Radix — radix trees in memory

A radix tree of depth `D` keeps its nodes at addresses of a memory that it shares with others.  A
node is named by the path to it, the last step first; nodes of depth less than `D` are arrays of
words, one for each child, and what the deeper ones hold is free.  `place` says where the nodes are.
The memory is a partial one, `heap`, what somebody has of it, and consists of the tree and a frame
`F` apart from it; so two trees are a tree in the frame of the other.
-/

namespace OsProjects.Lib

open Function

/-- The part of a memory that somebody has: arrays of words by address. -/
abbrev Heap (A ι W : Type) := A → Option (ι → W)

variable {A ι W : Type}

/-- The word for the child at a path is a function of where the child is, if there is one. -/
structure Radix (D : Nat) (word : List ι → Option A → W) (F heap : Heap A ι W)
    (place : List ι → Option A) : Prop where
  frame : ∀ a, (∀ ρ, place ρ ≠ some a) → heap a = F a
  outside : ∀ ρ a, place ρ = some a → F a = none
  inside : ∀ ρ a, place ρ = some a → heap a ≠ none
  inj : ∀ π ρ a, place π = some a → place ρ = some a → π = ρ
  parent : ∀ i π, place π = none → place (i :: π) = none
  depth : ∀ π, D < π.length → place π = none
  entry : ∀ π a, place π = some a → π.length < D →
    heap a = some fun i => word (i :: π) (place (i :: π))

namespace Radix

variable {D : Nat} {word word' : List ι → Option A → W} {F heap G : Heap A ι W}
  {place : List ι → Option A} {π ρ : List ι} {i : ι} {a b : A} {t : ι → W}

section

variable (h : Radix D word F heap place)
include h

theorem not_place_of_frame (hb : F b ≠ none) (ρ : List ι) :
    place ρ ≠ some b := fun hρ => hb (h.outside ρ b hρ)

theorem heap_of_frame (hb : F b ≠ none) : heap b = F b :=
  h.frame b (h.not_place_of_frame hb)

theorem not_place_of_free (hb : heap b = none) (ρ : List ι) :
    place ρ ≠ some b := fun hρ => h.inside ρ b hρ hb

/-- A node can be left only for one that is there. -/
theorem parent_place (hchild : place (i :: π) = some b) : ∃ a, place π = some a := by
  cases hπ : place π with
  | none => cases (h.parent i π hπ).symm.trans hchild
  | some a => exact ⟨a, rfl⟩

theorem ne_of_path_ne (hρ : place ρ = some b) (hπ : place π = some a) (hne : ρ ≠ π) : b ≠ a := by
  rintro rfl
  exact hne (h.inj ρ π b hρ hπ)

/-- The tree is where it was, whatever is around it. -/
theorem reframe {F' heap' : Heap A ι W}
    (htree : ∀ ρ a, place ρ = some a → F' a = none ∧ heap' a = heap a)
    (hrest : ∀ a, (∀ ρ, place ρ ≠ some a) → heap' a = F' a) : Radix D word F' heap' place := by
  refine ⟨hrest, fun ρ a hρ => (htree ρ a hρ).1, fun ρ a hρ => ?_, h.inj, h.parent, h.depth,
    fun ρ a hρ hlen => ?_⟩
  · rw [(htree ρ a hρ).2]
    exact h.inside ρ a hρ
  · rw [(htree ρ a hρ).2]
    exact h.entry ρ a hρ hlen

end

section Update

variable [DecidableEq A]

/-- Something comes into the frame, is changed there, or leaves it. -/
theorem outer (h : Radix D word F heap place) (hb : ∀ ρ, place ρ ≠ some b) (x : Option (ι → W)) :
    Radix D word (update F b x) (update heap b x) place := by
  refine h.reframe (fun ρ c hρ => ?_) fun c hc => ?_
  · have hcb : c ≠ b := fun heq => hb ρ (heq ▸ hρ)
    rw [update_of_ne hcb, update_of_ne hcb]
    exact ⟨h.outside ρ c hρ, rfl⟩
  · by_cases hcb : c = b
    · rw [hcb, update_self, update_self]
    · rw [update_of_ne hcb, update_of_ne hcb]
      exact h.frame c hc

variable [DecidableEq ι] {u : ι → W}

/-! ## One word of the tree changes -/

section Change

variable (h : Radix D word F heap place) (hπ : place π = some a) (hlen : π.length < D)
  (ht : heap a = some t) (hword : ∀ ρ ≠ i :: π, word' ρ = word ρ)
include h hπ hlen ht hword

omit [DecidableEq A] in
/-- The word for the child `i` of `π` has changed, and the words of the other nodes that are left
have not. -/
theorem entry_of_change {place' : List ι → Option A}
    (hplace : ∀ ρ ≠ i :: π, place' ρ = place ρ) {heap' : Heap A ι W}
    (hnode : heap' a = some (update t i (word' (i :: π) (place' (i :: π))))) {c : A}
    (hρ : place ρ = some c) (hother : c ≠ a → heap' c = heap c) (hlen' : ρ.length < D) :
    heap' c = some fun j => word' (j :: ρ) (place' (j :: ρ)) := by
  by_cases hρπ : ρ = π
  · subst hρπ
    cases hπ.symm.trans hρ
    rw [hnode]
    refine congrArg some (funext fun j => ?_)
    by_cases hji : j = i
    · rw [hji, update_self]
    · have htj := congrFun (Option.some.inj (ht.symm.trans (h.entry ρ a hπ hlen))) j
      have hne : j :: ρ ≠ i :: ρ := fun heq => hji (List.cons.inj heq).1
      rw [update_of_ne hji, htj, hword _ hne, hplace _ hne]
  · rw [hother (h.ne_of_path_ne hρ hπ hρπ), h.entry ρ c hρ hlen']
    refine congrArg some (funext fun j => ?_)
    have hne : j :: ρ ≠ i :: π := fun heq => hρπ (List.cons.inj heq).2
    rw [hword _ hne, hplace _ hne]

/-- The word for a path is another. -/
theorem rewrite : Radix D word' F
      (update heap a (some (update t i (word' (i :: π) (place (i :: π)))))) place := by
  refine ⟨fun c hc => ?_, h.outside, fun ρ c hρ => ?_, h.inj, h.parent, h.depth, fun ρ c hρ hlen' =>
    h.entry_of_change hπ hlen ht hword (fun _ _ => rfl) (update_self ..) hρ
      (update_of_ne · ..) hlen'⟩
  · have hca : c ≠ a := fun heq => hc π (heq ▸ hπ)
    rw [update_of_ne hca]
    exact h.frame c hc
  · by_cases hca : c = a
    · rw [hca, update_self]
      nofun
    · rw [update_of_ne hca]
      exact h.inside ρ c hρ

/-- A node of the frame is made the child at a path that has none; its own words say that it has no
children. -/
theorem attach (hnone : place (i :: π) = none) (hb : F b = some u)
    (hu : π.length + 1 < D → ∀ j, u j = word (j :: i :: π) none) : Radix D word' (update F b none)
      (update heap a (some (update t i (word' (i :: π) (some b)))))
      (update place (i :: π) (some b)) := by
  have hfb : F b ≠ none := by rw [hb]; nofun
  have hnot := h.not_place_of_frame hfb
  have hba : b ≠ a := fun heq => hnot π (heq ▸ hπ)
  have hself : π ≠ i :: π := (List.cons_ne_self i π).symm
  have hold : ∀ {ρ c}, ρ ≠ i :: π → update place (i :: π) (some b) ρ = some c → place ρ = some c :=
    fun hne hρ => by rwa [update_of_ne hne] at hρ
  refine ⟨fun c hc => ?_, fun ρ c hρ => ?_, fun ρ c hρ => ?_, fun ρ σ c hρ hσ => ?_,
    fun j ρ hρ => ?_, fun ρ hρ => ?_, fun ρ c hρ hlen' => ?_⟩
  · have hcb : c ≠ b := fun heq => hc (i :: π) (heq ▸ update_self ..)
    have hca : c ≠ a := fun heq => hc π (heq ▸ (update_of_ne hself ..).trans hπ)
    rw [update_of_ne hca, update_of_ne hcb]
    refine h.frame c fun ρ hρ => hc ρ ?_
    have hne : ρ ≠ i :: π := by
      rintro rfl
      cases hnone.symm.trans hρ
    rw [update_of_ne hne, hρ]
  · by_cases hcb : c = b
    · rw [hcb, update_self]
    · rw [update_of_ne hcb]
      by_cases hne : ρ = i :: π
      · rw [hne, update_self] at hρ
        exact absurd (Option.some.inj hρ).symm hcb
      · exact h.outside ρ c (hold hne hρ)
  · by_cases hca : c = a
    · rw [hca, update_self]
      nofun
    · rw [update_of_ne hca]
      by_cases hne : ρ = i :: π
      · rw [hne, update_self] at hρ
        cases hρ
        rwa [h.heap_of_frame hfb]
      · exact h.inside ρ c (hold hne hρ)
  · by_cases hρ' : ρ = i :: π
    · by_cases hσ' : σ = i :: π
      · rw [hρ', hσ']
      · rw [hρ', update_self] at hρ
        cases hρ
        exact absurd (hold hσ' hσ) (hnot σ)
    · by_cases hσ' : σ = i :: π
      · rw [hσ', update_self] at hσ
        cases hσ
        exact absurd (hold hρ' hρ) (hnot ρ)
      · exact h.inj ρ σ c (hold hρ' hρ) (hold hσ' hσ)
  · have hne : ρ ≠ i :: π := by
      rintro rfl
      rw [update_self] at hρ
      cases hρ
    rw [update_of_ne hne] at hρ
    have hne' : j :: ρ ≠ i :: π := by
      intro heq
      cases heq
      cases hρ.symm.trans hπ
    rw [update_of_ne hne']
    exact h.parent j ρ hρ
  · have hne : ρ ≠ i :: π := by
      rintro rfl
      rw [List.length_cons] at hρ
      omega
    rw [update_of_ne hne]
    exact h.depth ρ hρ
  · by_cases hne : ρ = i :: π
    · subst hne
      rw [update_self] at hρ
      cases hρ
      rw [update_of_ne hba, h.heap_of_frame hfb, hb]
      refine congrArg some (funext fun j => ?_)
      have hlong : j :: i :: π ≠ i :: π := List.cons_ne_self j _
      rw [hu hlen' j, hword _ hlong, update_of_ne hlong, h.parent j _ hnone]
    · refine h.entry_of_change hπ hlen ht hword (fun _ => (update_of_ne · ..)) ?_ (hold hne hρ)
        (update_of_ne · ..) hlen'
      rw [update_self, update_self]

/-- A node without children is taken out and given away. -/
theorem detach (hb : place (i :: π) = some b) (hleaf : ∀ j, place (j :: i :: π) = none) :
    Radix D word' F
      (update (update heap b none) a (some (update t i (word' (i :: π) none))))
      (update place (i :: π) none) := by
  have hself : π ≠ i :: π := (List.cons_ne_self i π).symm
  have hold : ∀ {ρ c}, update place (i :: π) none ρ = some c → ρ ≠ i :: π ∧ place ρ = some c := by
    intro ρ c hρ
    have hne : ρ ≠ i :: π := by
      rintro rfl
      rw [update_self] at hρ
      cases hρ
    rw [update_of_ne hne] at hρ
    exact ⟨hne, hρ⟩
  refine ⟨fun c hc => ?_, fun ρ c hρ => h.outside ρ c (hold hρ).2, fun ρ c hρ => ?_,
    fun ρ σ c hρ hσ => h.inj ρ σ c (hold hρ).2 (hold hσ).2, fun j ρ hρ => ?_, fun ρ hρ => ?_,
    fun ρ c hρ hlen' => ?_⟩
  · have hca : c ≠ a := fun heq => hc π (heq ▸ (update_of_ne hself ..).trans hπ)
    rw [update_of_ne hca]
    by_cases hcb : c = b
    · rw [hcb, update_self, h.outside _ b hb]
    · rw [update_of_ne hcb]
      refine h.frame c fun ρ hρ => hc ρ ?_
      have hne : ρ ≠ i :: π := by
        rintro rfl
        exact hcb (Option.some.inj (hρ.symm.trans hb))
      rw [update_of_ne hne, hρ]
  · obtain ⟨hne, hplace⟩ := hold hρ
    by_cases hca : c = a
    · rw [hca, update_self]
      nofun
    · rw [update_of_ne hca, update_of_ne (h.ne_of_path_ne hplace hb hne)]
      exact h.inside ρ c hplace
  · by_cases hne : j :: ρ = i :: π
    · rw [hne, update_self]
    · rw [update_of_ne hne]
      by_cases hne' : ρ = i :: π
      · rw [hne']
        exact hleaf j
      · rw [update_of_ne hne'] at hρ
        exact h.parent j ρ hρ
  · by_cases hne : ρ = i :: π
    · rw [hne, update_self]
    · rw [update_of_ne hne]
      exact h.depth ρ hρ
  · obtain ⟨hne, hplace⟩ := hold hρ
    refine h.entry_of_change hπ hlen ht hword (fun _ => (update_of_ne · ..)) ?_ hplace
      (fun hca => ?_) hlen'
    · rw [update_self, update_self]
    · rw [update_of_ne hca, update_of_ne (h.ne_of_path_ne hplace hb hne)]

end Change

/-! ## Trees come and go -/

omit [DecidableEq ι] in
/-- A node of the frame with no children is a tree. -/
theorem plant (hb : F b = some u) (hu : ∀ i, u i = word [i] none) (D : Nat) :
    Radix (D + 1) word (update F b none) F fun ρ => if ρ = [] then some b else none := by
  have hroot : ∀ {ρ c}, (if ρ = ([] : List ι) then some b else none) = some c → ρ = [] ∧ c = b := by
    intro ρ c hρ
    split at hρ
    · rename_i hnil
      exact ⟨hnil, (Option.some.inj hρ).symm⟩
    · cases hρ
  refine ⟨fun c hc => ?_, fun ρ c hρ => ?_, fun ρ c hρ => ?_, fun ρ σ c hρ hσ => ?_,
    fun i π _ => if_neg nofun, fun π hπ => ?_, fun π c hπ _ => ?_⟩
  · have hcb : c ≠ b := by
      rintro rfl
      exact hc [] (if_pos rfl)
    rw [update_of_ne hcb]
  · rw [(hroot hρ).2, update_self]
  · rw [(hroot hρ).2, hb]
    nofun
  · rw [(hroot hρ).1, (hroot hσ).1]
  · have hne : π ≠ [] := by
      rintro rfl
      cases hπ
    rw [if_neg hne]
  · obtain ⟨rfl, rfl⟩ := hroot hπ
    rw [hb]
    exact congrArg some (funext fun i => (hu i).trans (congrArg _ (if_neg nofun).symm))

omit [DecidableEq ι] in
/-- The last node is given away. -/
theorem uproot (h : Radix D word F heap place) (hroot : place [] = some a)
    (hlast : ∀ ρ, ρ ≠ [] → place ρ = none) : update heap a none = F := by
  funext c
  by_cases hca : c = a
  · rw [hca, update_self, h.outside [] a hroot]
  · rw [update_of_ne hca]
    refine h.frame c fun ρ hρ => hca ?_
    by_cases hnil : ρ = []
    · rw [hnil, hroot] at hρ
      exact (Option.some.inj hρ).symm
    · cases (hlast ρ hnil).symm.trans hρ

end Update

/-- What is below the child `i` of the root is a tree, and the rest its frame. -/
theorem sub (h : Radix (D + 1) word F heap place) (i : ι) :
    ∃ G, Radix D (fun ρ => word (ρ ++ [i])) G heap fun ρ => place (ρ ++ [i]) := by
  classical
  refine ⟨fun c => if ∃ ρ, place (ρ ++ [i]) = some c then none else heap c, fun c hc => ?_,
    fun ρ c hρ => ?_,
    fun ρ c hρ => h.inside _ c hρ, fun ρ σ c hρ hσ => ?_, fun j ρ hρ => h.parent j _ hρ,
    fun ρ hρ => ?_, fun ρ c hρ hlen => ?_⟩
  · exact (if_neg (not_exists.mpr hc)).symm
  · exact if_pos ⟨ρ, hρ⟩
  · exact List.append_cancel_right (h.inj _ _ c hρ hσ)
  · refine h.depth _ ?_
    rw [List.length_append, List.length_singleton]
    omega
  · refine h.entry (ρ ++ [i]) c hρ ?_
    rw [List.length_append, List.length_singleton]
    omega

/-- The child `i` of the root is cut off. -/
def prune [DecidableEq ι] (i : ι) (place : List ι → Option A) (ρ : List ι) : Option A :=
  if ρ.getLast? = some i then none else place ρ

section Cut

variable [DecidableEq ι]

theorem prune_nil : prune i place [] = place [] := if_neg nofun

theorem prune_eq_some : prune i place ρ = some b ↔ ρ.getLast? ≠ some i ∧ place ρ = some b := by
  unfold prune
  split <;> simp_all

theorem prune_append (ρ : List ι) : prune i place (ρ ++ [i]) = none := by
  rw [prune, List.getLast?_append, List.getLast?_singleton]
  exact if_pos rfl

variable [DecidableEq A]

/-- When everything below the child `i` has been given away, the word for it says so. -/
theorem cut (h : Radix (D + 1) word F heap place) (hroot : place [] = some a)
    (hsub : Radix D (fun ρ => word (ρ ++ [i])) G heap fun ρ => place (ρ ++ [i]))
    (ht : G a = some t) :
    Radix (D + 1) word F (update G a (some (update t i (word [i] none)))) (prune i place) := by
  have hkept : ∀ {ρ c}, ρ.getLast? ≠ some i → place ρ = some c → G c = heap c := by
    intro ρ c hlast hρ
    refine (hsub.frame c fun σ hσ => hlast ?_).symm
    rw [h.inj ρ (σ ++ [i]) c hρ hσ, List.getLast?_append, List.getLast?_singleton]
    rfl
  refine ⟨fun c hc => ?_, fun ρ c hρ => h.outside ρ c (prune_eq_some.mp hρ).2, fun ρ c hρ => ?_,
    fun ρ σ c hρ hσ => h.inj ρ σ c (prune_eq_some.mp hρ).2 (prune_eq_some.mp hσ).2,
    fun j ρ hρ => ?_, fun ρ hρ => ?_, fun ρ c hρ hlen => ?_⟩
  · have hca : c ≠ a := fun heq => hc [] (heq ▸ prune_nil.trans hroot)
    rw [update_of_ne hca]
    by_cases hin : ∃ σ, place (σ ++ [i]) = some c
    · obtain ⟨σ, hσ⟩ := hin
      rw [hsub.outside σ c hσ, h.outside _ c hσ]
    · rw [← hsub.frame c (not_exists.mp hin)]
      refine h.frame c fun ρ hρ => hc ρ (prune_eq_some.mpr ⟨fun hlast => hin ?_, hρ⟩)
      obtain ⟨σ, rfl⟩ := List.getLast?_eq_some_iff.mp hlast
      exact ⟨σ, hρ⟩
  · obtain ⟨hlast, hρ⟩ := prune_eq_some.mp hρ
    by_cases hca : c = a
    · rw [hca, update_self]
      nofun
    · rw [update_of_ne hca, hkept hlast hρ]
      exact h.inside ρ c hρ
  · unfold prune at hρ ⊢
    split at hρ
    · rename_i hlast
      obtain ⟨σ, rfl⟩ := List.getLast?_eq_some_iff.mp hlast
      rw [← List.cons_append, List.getLast?_append, List.getLast?_singleton]
      exact if_pos rfl
    · rw [h.parent j ρ hρ]
      exact ite_self none
  · unfold prune
    rw [h.depth ρ hρ]
    exact ite_self none
  · obtain ⟨hlast, hρ⟩ := prune_eq_some.mp hρ
    by_cases hnil : ρ = []
    · subst hnil
      cases hroot.symm.trans hρ
      rw [update_self]
      refine congrArg some (funext fun j => ?_)
      by_cases hji : j = i
      · rw [hji, update_self]
        exact congrArg _ (prune_append []).symm
      · have hword := h.entry [] a hroot hlen
        rw [← hkept hlast hroot, ht] at hword
        rw [update_of_ne hji, congrFun (Option.some.inj hword) j, prune, if_neg]
        exact fun heq => hji (Option.some.inj heq)
    · have hca : c ≠ a := h.ne_of_path_ne hρ hroot hnil
      rw [update_of_ne hca, hkept hlast hρ, h.entry ρ c hρ hlen]
      refine congrArg some (funext fun j => ?_)
      have hsame : (j :: ρ).getLast? = ρ.getLast? := List.getLast?_cons_of_ne_nil hnil
      rw [prune, hsame, if_neg hlast]

end Cut

/-- Of two trees either is in the frame of the other. -/
theorem swap {D₁ D₂ : Nat} {word₁ word₂ : List ι → Option A → W} {place₁ place₂ : List ι → Option A}
    (h₁ : Radix D₁ word₁ G F place₁) (h₂ : Radix D₂ word₂ F heap place₂) :
    ∃ F', Radix D₂ word₂ G F' place₂ ∧ Radix D₁ word₁ F' heap place₁ := by
  classical
  have hapart : ∀ {ρ σ c}, place₁ ρ = some c → place₂ σ ≠ some c := by
    intro ρ σ c hρ hσ
    exact h₁.inside ρ c hρ (h₂.outside σ c hσ)
  have hkept : ∀ {ρ c}, place₁ ρ = some c → heap c = F c := fun hρ => h₂.frame _ fun σ => hapart hρ
  have hnot : ∀ {σ c}, place₂ σ = some c → ¬∃ ρ, place₁ ρ = some c := by
    rintro σ c hσ ⟨ρ, hρ⟩
    exact hapart hρ hσ
  refine ⟨fun c => if ∃ ρ, place₁ ρ = some c then none else heap c,
    h₂.reframe (fun σ c hσ => ⟨?_, if_neg (hnot hσ)⟩) fun c hc => ?_,
    h₁.reframe (fun ρ c hρ => ⟨if_pos ⟨ρ, hρ⟩, hkept hρ⟩) fun c hc =>
      (if_neg (not_exists.mpr hc)).symm⟩
  · rw [← h₁.frame c (not_exists.mp (hnot hσ))]
    exact h₂.outside σ c hσ
  · by_cases hin : ∃ ρ, place₁ ρ = some c
    · obtain ⟨ρ, hρ⟩ := hin
      rw [if_pos ⟨ρ, hρ⟩, h₁.outside ρ c hρ]
    · rw [if_neg hin, h₂.frame c hc]
      exact h₁.frame c (not_exists.mp hin)

end Radix

end OsProjects.Lib
