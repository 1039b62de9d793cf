import OsProjects.Lib.Prog

/-!
# Discipline — interleaved programs that keep to what is theirs

Each process has a local state, which only its own actions change and which the machine does not
store.  `pre` says what the process must have for an action, and `post` what the reply can be and
what the process has then.  Whether a program keeps to this is settled by looking at the program
alone; in an interleaving of such programs every action meets its precondition, so an invariant of
the shared state and the local ones needs one argument for each action and none about the programs.
-/

namespace OsProjects.Lib

open Function

/-- What processes need and get for each action. -/
structure Discipline (A : Type) (R : A → Type) (L : Type) where
  pre : A → L → Prop
  post : (a : A) → L → R a → L → Prop

namespace Discipline

variable {σ π A L α β : Type} {R : A → Type} (D : Discipline A R L)

/-- From `l` on the program has what it needs for each action, and ends with `Q`. -/
def Keeps : Prog A R α → L → (α → L → Prop) → Prop
  | .ret x, l, Q => Q x l
  | .act a k, l, Q => D.pre a l ∧ ∀ r l', D.post a l r l' → Keeps (k r) l' Q

variable {D} {x : Prog A R α} {l : L}

theorem keeps_bind {f : α → Prog A R β} {Q : β → L → Prop} :
    D.Keeps (x >>= f) l Q ↔ D.Keeps x l fun y l' => D.Keeps (f y) l' Q := by
  induction x generalizing l with
  | ret x => rfl
  | act a k ih =>
    show (D.pre a l ∧ ∀ r l', D.post a l r l' → D.Keeps ((k r) >>= f) l' Q) ↔
      D.pre a l ∧ ∀ r l', D.post a l r l' → D.Keeps (k r) l' _
    simp only [ih]

theorem Keeps.mono {Q Q' : α → L → Prop} (h : D.Keeps x l Q)
    (himp : ∀ y l', Q y l' → Q' y l') : D.Keeps x l Q' := by
  induction x generalizing l with
  | ret x => exact himp x l h
  | act a k ih => exact ⟨h.1, fun r l' hpost => ih r (h.2 r l' hpost)⟩

section Sound

variable {χ κ : Type} [DecidableEq π] {exec : π → (a : A) → σ → Except χ (R a × σ)}
  {code : κ → Prog A R α} {allowed : σ → π → A → Prop} {inv : σ → (π → L) → Prop} {idle : L → Prop}
  {locs : π → L} {c : Config σ π A R α} {p : π}

/-- An action that is allowed and meets its precondition does what `post` says and keeps the
invariant. -/
def Sound (D : Discipline A R L) (exec : π → (a : A) → σ → Except χ (R a × σ))
    (allowed : σ → π → A → Prop) (inv : σ → (π → L) → Prop) : Prop :=
  ∀ s locs p a r s', inv s locs → allowed s p a → D.pre a (locs p) → exec p a s = .ok (r, s') →
    ∃ l, D.post a (locs p) r l ∧ inv s' (update locs p l)

/-- What each process still has to do keeps to the discipline. -/
def Kept (D : Discipline A R L) (idle : L → Prop) (locs : π → L) (c : Config σ π A R α) : Prop :=
  ∀ p, match c.jobs p with
    | none => idle (locs p)
    | some x => D.Keeps x (locs p) fun _ => idle

theorem kept_update {s : σ} (h : D.Kept idle locs c) (hx : D.Keeps x l fun _ => idle) :
    D.Kept idle (update locs p l) ⟨s, update c.jobs p x.pending⟩ := by
  intro q
  by_cases hq : q = p
  · subst hq
    simp only [update_self]
    cases x with
    | ret y | act a k => exact hx
  · simp only [update_of_ne hq]
    exact h q

theorem Sound.step (hsound : D.Sound exec allowed inv)
    (hcode : ∀ call l, idle l → D.Keeps (code call) l fun _ => idle)
    {c c' : Config σ π A R α} {e : Event π κ} (hinv : inv c.shared locs)
    (hkept : D.Kept idle locs c) (hallowed : c.Admits allowed e)
    (hstep : c.step exec code e = .ok c') :
    ∃ locs', inv c'.shared locs' ∧ D.Kept idle locs' c' := by
  rcases Config.step_cases hstep
    with ⟨p, call, rfl, hjob, rfl⟩ | ⟨p, a, k, r, s, rfl, hjob, hexec, rfl⟩
  · have hidle := hkept p
    rw [hjob] at hidle
    have hkept' := kept_update (s := c.shared) (p := p) hkept (hcode call _ hidle)
    rw [update_eq_self] at hkept'
    exact ⟨locs, hinv, hkept'⟩
  · have hp := hkept p
    rw [hjob] at hp
    have hnext : c.next p = some a := by simp only [Config.next, hjob]
    obtain ⟨l, hpost, hinv'⟩ := hsound _ locs p a r s hinv (hallowed a hnext) hp.1 hexec
    exact ⟨_, hinv', kept_update hkept (hp.2 r _ hpost)⟩

theorem Sound.reach (hsound : D.Sound exec allowed inv)
    (hcode : ∀ call l, idle l → D.Keeps (code call) l fun _ => idle) {s₀ : σ} (hinv : inv s₀ locs)
    (hidle : ∀ p, idle (locs p))
    (h : Reach (Config.step exec code) (Config.Admits allowed) ⟨s₀, fun _ => none⟩ c) :
    ∃ locs', inv c.shared locs' ∧ D.Kept idle locs' c := by
  induction h with
  | init => exact ⟨locs, hinv, hidle⟩
  | step _ hallowed hok ih =>
    obtain ⟨locs', hinv', hkept⟩ := ih
    exact hsound.step hcode hinv' hkept hallowed hok

omit [DecidableEq π] in
theorem Kept.pre (h : D.Kept idle locs c) {a : A} (hnext : c.next p = some a) :
    D.pre a (locs p) := by
  have hp := h p
  cases hjob : c.jobs p with
  | none => simp only [Config.next, hjob, reduceCtorEq] at hnext
  | some x =>
    cases x with
    | ret y => simp only [Config.next, hjob, reduceCtorEq] at hnext
    | act b k =>
      simp only [Config.next, hjob, Option.some.injEq] at hnext
      rw [hjob] at hp
      exact hnext ▸ hp.1

omit [DecidableEq π] in
theorem Kept.rests (h : D.Kept idle locs c) (hjob : c.jobs p = none) : idle (locs p) := by
  have hp := h p
  rwa [hjob] at hp

end Sound

end Discipline

end OsProjects.Lib
