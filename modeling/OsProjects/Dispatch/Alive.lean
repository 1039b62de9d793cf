import OsProjects.Dispatch.LockStep

/-!
# Alive — the two views of who runs

The selection block asks `choose_random_active_child`, which replays the command table, for a name,
and looks the name up in `child_pid_name`, which the parent keeps as it goes. The two agree as long
as every start command names a process that is not running and, where there are terminate commands,
has a number other than 0: a cleared entry of `child_pid_name` has the name 0 and the pid 0.
-/

namespace OsProjects.Dispatch

open Function List Option

open Lib

variable {M : Nat}

/-! ## The condition on the table -/

/-- The number of steps of the loop. -/
def Config.steps (cfg : Config) : Nat := (cfg.finalStep + 1).toNat

def starts (commands : Nat → Opcommand) (n : Nat) : Nat :=
  (List.range n).countP fun i => (commands i).command = .start

/-- At most 100 processes are started, and if any is, the numbers are from 0 to 99. -/
def Config.ChildrenFit (cfg : Config) : Prop :=
  starts cfg.commandsstruct cfg.steps ≤ MAX_CHILDREN ∧
  (0 < starts cfg.commandsstruct cfg.steps → ∀ i < cfg.steps,
    (cfg.commandsstruct i).command = .start ∨ (cfg.commandsstruct i).command = .terminate →
      0 ≤ (cfg.commandsstruct i).process ∧ (cfg.commandsstruct i).process < MAX_CHILDREN)

/-- Among the first `n` commands a start of the process is the last that names it. -/
def Started (commands : Nat → Opcommand) (n : Nat) (name : Int) : Prop :=
  ∃ i < n, (commands i).command = .start ∧ (commands i).process = name ∧
    ∀ k < n, i < k → (commands k).command = .terminate → (commands k).process ≠ name

def Config.Terminates (cfg : Config) : Prop :=
  ∃ i < cfg.steps, (cfg.commandsstruct i).command = .terminate

/-- The children fit, no process is started while it is started already, and none with the number 0
if there is a terminate command. -/
def Config.WellNamed (cfg : Config) : Prop :=
  cfg.ChildrenFit ∧
  (cfg.Terminates → ∀ i < cfg.steps, (cfg.commandsstruct i).command = .start →
    (cfg.commandsstruct i).process ≠ 0) ∧
  (∀ i < cfg.steps, (cfg.commandsstruct i).command = .start →
    ¬ Started cfg.commandsstruct i (cfg.commandsstruct i).process)

instance (commands : Nat → Opcommand) (n : Nat) (name : Int) :
    Decidable (Started commands n name) :=
  inferInstanceAs (Decidable (∃ i < n, _))

instance (cfg : Config) : Decidable cfg.ChildrenFit := inferInstanceAs (Decidable (_ ∧ _))

instance (cfg : Config) : Decidable cfg.Terminates := inferInstanceAs (Decidable (∃ i < _, _))

instance (cfg : Config) : Decidable cfg.WellNamed := inferInstanceAs (Decidable (_ ∧ _ ∧ _))

theorem Config.lt_steps {cfg : Config} {i : Nat} : i < cfg.steps ↔ (i : Int) ≤ cfg.finalStep := by
  unfold Config.steps
  omega

theorem starts_succ (commands : Nat → Opcommand) (n : Nat) : starts commands (n + 1) =
      starts commands n + if (commands n).command = .start then 1 else 0 := by
  simp [starts, range_succ, countP_append, countP_singleton]

theorem starts_pos {cfg : Config} {i : Nat} (hi : i < cfg.steps)
    (hverb : (cfg.commandsstruct i).command = .start) : 0 < starts cfg.commandsstruct cfg.steps :=
  countP_pos_iff.mpr ⟨i, mem_range.mpr hi, decide_eq_true hverb⟩

theorem starts_mono (commands : Nat → Opcommand) {m n : Nat} (h : m ≤ n) :
    starts commands m ≤ starts commands n :=
  List.Sublist.countP_le (range_sublist.mpr h)

/-! ## The replay -/

section Replay

variable {commands : Nat → Opcommand} {n : Nat} {active : Nat → Bool}

theorem inRange?_eq_some {i : Int} {k : Fin M} : inRange? M i = some k ↔ k.val = i := by
  unfold inRange?
  split
  · rw [Option.some.injEq, Fin.ext_iff]
    show i.toNat = k.val ↔ _
    omega
  · exact iff_of_false nofun (by omega)

theorem replay_start (h : replay commands n = some active) (hverb : (commands n).command = .start)
    {k : Fin MAX_CHILDREN} (hk : k.val = (commands n).process) :
    replay commands (n + 1) = some (update active k true) := by
  simp only [replay, h, bind_some, hverb, inRange?_eq_some.mpr hk, map_some]

theorem replay_terminate (h : replay commands n = some active)
    (hverb : (commands n).command = .terminate) {k : Fin MAX_CHILDREN}
    (hk : k.val = (commands n).process) :
    replay commands (n + 1) = some (update active k false) := by
  simp only [replay, h, bind_some, hverb, inRange?_eq_some.mpr hk, map_some]

theorem replay_blank (h : replay commands n = some active)
    (hverb : (commands n).command = .blank) : replay commands (n + 1) = some active := by
  simp only [replay, h, bind_some, hverb]

theorem Started.succ {name : Int} (h : Started commands n name)
    (hn : (commands n).command = .terminate → (commands n).process ≠ name) :
    Started commands (n + 1) name := by
  obtain ⟨i, hi, hstart, hproc, hsince⟩ := h
  refine ⟨i, Nat.lt_succ_of_lt hi, hstart, hproc, fun k hk hik => ?_⟩
  rcases Nat.lt_succ_iff_lt_or_eq.mp hk with hk | rfl
  · exact hsince k hk hik
  · exact hn

theorem started_of_active (h : replay commands n = some active) {name : Nat}
    (hname : active name = true) : name < MAX_CHILDREN ∧ Started commands n name := by
  induction n generalizing active with
  | zero =>
    cases h
    cases hname
  | succ n ih =>
    simp only [replay, bind_eq_some_iff] at h
    obtain ⟨before, hbefore, h⟩ := h
    cases hverb : (commands n).command with
    | start =>
      simp only [hverb, map_eq_some_iff] at h
      obtain ⟨k, hk, rfl⟩ := h
      rw [inRange?_eq_some] at hk
      by_cases hnew : name = k
      · refine ⟨hnew ▸ k.isLt, n, Nat.lt_succ_self n, hverb, hnew ▸ hk.symm, fun j hj hnj => ?_⟩
        omega
      · rw [update_of_ne hnew] at hname
        exact (ih hbefore hname).imp id fun h => h.succ (by simp [hverb])
    | terminate =>
      simp only [hverb, map_eq_some_iff] at h
      obtain ⟨k, hk, rfl⟩ := h
      rw [inRange?_eq_some] at hk
      by_cases hgone : name = k
      · rw [hgone, update_self] at hname
        cases hname
      · rw [update_of_ne hgone] at hname
        exact (ih hbefore hname).imp id fun h => h.succ fun _ heq => by omega
    | blank | exit =>
      simp only [hverb] at h
      cases h
      exact (ih hbefore hname).imp id fun h => h.succ (by simp [hverb])

end Replay

/-! ## Names in `child_pid_name` -/

/-- No two entries in use have the same name. -/
def NamesApart (entries : List Runningprocess) : Prop :=
  entries.Pairwise fun e e' => e.pid ≠ 0 → e'.pid ≠ 0 → e.name ≠ e'.name

/-- The name of an entry in use. -/
def Live (entries : List Runningprocess) (name : Int) : Prop :=
  ∃ e ∈ entries, e.pid ≠ 0 ∧ e.name = name

def inUse (entries : List Runningprocess) : Nat := entries.countP fun e => e.pid ≠ 0

section Entries

variable {entries : List Runningprocess} {name : Int}

theorem inUse_cons (e : Runningprocess) :
    inUse (e :: entries) = inUse entries + if e.pid ≠ 0 then 1 else 0 := by
  simp [inUse, countP_cons]

theorem NamesApart.terminateEntries (h : NamesApart entries) (name : Int) :
    NamesApart (terminateEntries name entries).1 := by
  apply pairwise_terminateEntries _ _ name h
  · exact fun _ hpid => absurd rfl hpid
  · exact fun _ _ hpid => absurd rfl hpid

theorem live_terminateEntries {other : Int} :
    Live (terminateEntries name entries).1 other ↔ Live entries other ∧ other ≠ name := by
  constructor
  · rintro ⟨e, he, hpid, rfl⟩
    rcases mem_terminateEntries he with rfl | ⟨he, hkeep⟩
    · exact absurd rfl hpid
    · exact ⟨⟨e, he, hpid, rfl⟩, fun heq => hkeep ⟨heq, hpid⟩⟩
  · rintro ⟨⟨e, he, hpid, rfl⟩, hne⟩
    refine ⟨e, ?_, hpid, rfl⟩
    induction entries with
    | nil => cases he
    | cons a entries ih =>
      simp only [terminateEntries]
      rcases mem_cons.mp he with rfl | he
      · rw [if_neg fun h => hne h.1]
        exact mem_cons_self
      · split
        all_goals exact mem_cons_of_mem _ (ih he)

theorem length_terminateEntries : (terminateEntries name entries).1.length = entries.length := by
  induction entries with
  | nil => rfl
  | cons a entries ih =>
    simp only [terminateEntries]
    split
    all_goals exact congrArg (· + 1) ih

-- One entry at most has the name.
theorem NamesApart.inUse_terminateEntries (h : NamesApart entries) (name : Int) :
    inUse (Dispatch.terminateEntries name entries).1 +
      (Dispatch.terminateEntries name entries).2.isSome.toNat = inUse entries := by
  induction entries with
  | nil => rfl
  | cons a entries ih =>
    have ⟨hfirst, hrest⟩ := pairwise_cons.mp h
    have ih := ih hrest
    simp only [Dispatch.terminateEntries]
    by_cases ha : a.name = name ∧ a.pid ≠ 0
    · have hnone : (Dispatch.terminateEntries name entries).2 = none := by
        rw [eq_none_iff_forall_ne_some]
        intro pid hpid
        obtain ⟨e, he, hname, heq, hne⟩ := terminateEntries_found hpid
        exact hfirst e he ha.2 (heq ▸ hne) (ha.1.trans hname.symm)
      rw [hnone] at ih
      rw [if_pos ha, hnone, inUse_cons, inUse_cons, if_pos ha.2, ← ih]
      rfl
    · rw [if_neg ha, inUse_cons, inUse_cons, ← ih, Nat.add_right_comm]

theorem exists_live_of_inUse (h : 0 < inUse entries) : ∃ name, Live entries name := by
  obtain ⟨e, he, hpid⟩ := countP_pos_iff.mp h
  exact ⟨e.name, e, he, by simpa using hpid, rfl⟩

-- If all entries of the name have the same pid, that is the one chosen.
theorem pidChosen_eq {pid : Nat} {junk : Int} (hsame : ∀ e ∈ entries, e.name = name → e.pid = pid)
    (hsome : (∃ e ∈ entries, e.name = name) ∨ junk = pid) : pidChosen entries name junk = pid := by
  induction entries generalizing junk with
  | nil =>
    rcases hsome with ⟨e, he, -⟩ | hjunk
    · cases he
    · exact hjunk
  | cons a entries ih =>
    show pidChosen entries name (if a.name = name then a.pid else junk) = pid
    apply ih fun e he => hsame e (mem_cons_of_mem _ he)
    by_cases ha : a.name = name
    · right
      rw [if_pos ha, hsame a mem_cons_self ha]
    · rw [if_neg ha]
      rcases hsome with ⟨e, he, hname⟩ | hjunk
      · rcases mem_cons.mp he with rfl | he
        · exact absurd hname ha
        · exact .inl ⟨e, he, hname⟩
      · exact .inr hjunk

end Entries

theorem chosenIndex_eq {slot : Fin M → Nat} {k : Fin M} {name : Int}
    (hinj : ∀ k k', slot k = slot k' → slot k ≠ 0 → k = k') (hk : slot k ≠ 0) :
    chosenIndex slot name (slot k) = k.val := by
  unfold chosenIndex
  cases hfind : (List.finRange M).find? fun j => (slot j : Int) = slot k with
  | none =>
    have := List.find?_eq_none.mp hfind k (mem_finRange k)
    simp at this
  | some j =>
    have hj := List.find?_some hfind
    have hjk : slot j = slot k := Int.ofNat.inj (of_decide_eq_true hj)
    rw [hinj j k hjk (hjk ▸ hk)]

/-! ## The parent's own books -/

/-- The entries after `n` commands: their names are those of the replay, and `running` exceeds their
number by `d`. -/
structure Named (cfg : Config) (n : Nat) (entries : List Runningprocess) (running d : Int) :
    Prop where
  views : 0 < starts cfg.commandsstruct cfg.steps → ∃ active,
    replay cfg.commandsstruct n = some active ∧
      ∀ name, Live entries name ↔ ∃ k : Nat, active k = true ∧ k = name
  apart : NamesApart entries
  cleared : ∀ e ∈ entries, e.pid = 0 → e.name = 0 ∧ cfg.Terminates
  named : cfg.Terminates → ∀ e ∈ entries, e.pid ≠ 0 → e.name ≠ 0
  length : entries.length = starts cfg.commandsstruct n
  count : running = inUse entries + d

namespace Named

variable {cfg : Config} {i : Nat} {entries : List Runningprocess} {running d : Int}

theorem register (h : Named cfg i entries running 1) (hcfg : cfg.WellNamed)
    (hi : i < cfg.steps) (hverb : (cfg.commandsstruct i).command = .start) {pid : Nat}
    (hpid : pid ≠ 0) :
    Named cfg (i + 1) (entries ++ [⟨pid, (cfg.commandsstruct i).process⟩]) running 0 := by
  obtain ⟨⟨-, hsmall⟩, hzero, honce⟩ := hcfg
  have hpos := starts_pos hi hverb
  obtain ⟨active, hreplay, hviews⟩ := h.views hpos
  obtain ⟨k, hk⟩ : ∃ k : Fin MAX_CHILDREN, k.val = (cfg.commandsstruct i).process := by
    have hrange := hsmall hpos i hi (.inl hverb)
    exact ⟨⟨(cfg.commandsstruct i).process.toNat, by omega⟩, Int.toNat_of_nonneg hrange.1⟩
  -- nobody has the name yet
  have hnew : ¬ Live entries (cfg.commandsstruct i).process := by
    intro hlive
    obtain ⟨j, hj, hjk⟩ := (hviews _).mp hlive
    exact honce i hi hverb (hjk ▸ (started_of_active hreplay hj).2)
  refine ⟨fun _ => ⟨_, replay_start hreplay hverb hk, fun name => ?_⟩, ?_, ?_, ?_, ?_, ?_⟩
  · have hlive : Live (entries ++ [⟨pid, (cfg.commandsstruct i).process⟩]) name ↔
        Live entries name ∨ (cfg.commandsstruct i).process = name := by
      simp [Live, or_and_right, exists_or, hpid]
    rw [hlive, hviews name, ← hk]
    constructor
    · rintro (⟨j, hj, rfl⟩ | rfl)
      · refine ⟨j, ?_, rfl⟩
        by_cases hjk : j = k
        · rw [hjk, update_self]
        · rwa [update_of_ne hjk]
      · exact ⟨k, update_self .., rfl⟩
    · rintro ⟨j, hj, rfl⟩
      by_cases hjk : j = k
      · exact .inr (by rw [hjk])
      · rw [update_of_ne hjk] at hj
        exact .inl ⟨j, hj, rfl⟩
  · apply pairwise_append.mpr
    refine ⟨h.apart, pairwise_singleton _ _, fun a ha b hb hpa _ heq => ?_⟩
    cases mem_singleton.mp hb
    exact hnew ⟨a, ha, hpa, heq⟩
  · intro e he hp
    rcases mem_append.mp he with he | he
    · exact h.cleared e he hp
    · cases mem_singleton.mp he
      exact absurd hp hpid
  · intro hterm e he hp
    rcases mem_append.mp he with he | he
    · exact h.named hterm e he hp
    · cases mem_singleton.mp he
      exact hzero hterm i hi hverb
  · rw [length_append, length_singleton, h.length, starts_succ, if_pos hverb]
  · have hcount := h.count
    have huse : inUse (entries ++ [⟨pid, (cfg.commandsstruct i).process⟩]) = inUse entries + 1 := by
      simp [inUse, countP_append, hpid]
    omega

theorem terminate (h : Named cfg i entries running 0) (hcfg : cfg.WellNamed)
    (hi : i < cfg.steps) (hverb : (cfg.commandsstruct i).command = .terminate) :
    Named cfg (i + 1) (terminateEntries (cfg.commandsstruct i).process entries).1
      (running - (terminateEntries (cfg.commandsstruct i).process entries).2.isSome.toNat) 0 := by
  refine ⟨fun hpos => ?_, h.apart.terminateEntries _, fun e he hp => ?_, fun hterm e he hp => ?_,
    ?_, ?_⟩
  · obtain ⟨active, hreplay, hviews⟩ := h.views hpos
    obtain ⟨k, hk⟩ : ∃ k : Fin MAX_CHILDREN, k.val = (cfg.commandsstruct i).process := by
      have hrange := hcfg.1.2 hpos i hi (.inr hverb)
      exact ⟨⟨(cfg.commandsstruct i).process.toNat, by omega⟩, Int.toNat_of_nonneg hrange.1⟩
    refine ⟨_, replay_terminate hreplay hverb hk, fun name => ?_⟩
    rw [live_terminateEntries, hviews name, ← hk]
    constructor
    · rintro ⟨⟨j, hj, rfl⟩, hne⟩
      refine ⟨j, ?_, rfl⟩
      rwa [update_of_ne fun hjk => hne (by rw [hjk])]
    · rintro ⟨j, hj, rfl⟩
      by_cases hjk : j = k
      · rw [hjk, update_self] at hj
        cases hj
      · rw [update_of_ne hjk] at hj
        exact ⟨⟨j, hj, rfl⟩, fun heq => hjk (Int.ofNat.inj heq)⟩
  · rcases mem_terminateEntries he with rfl | he
    · exact ⟨rfl, i, hi, hverb⟩
    · exact h.cleared e he.1 hp
  · rcases mem_terminateEntries he with rfl | he
    · exact absurd rfl hp
    · exact h.named hterm e he.1 hp
  · rw [length_terminateEntries, h.length, starts_succ, hverb]
    rfl
  · have hcount := h.count
    have huse := h.apart.inUse_terminateEntries (cfg.commandsstruct i).process
    omega

theorem blank (h : Named cfg i entries running d)
    (hverb : (cfg.commandsstruct i).command = .blank) : Named cfg (i + 1) entries running d := by
  refine { h with views := fun hpos => ?_, length := ?_ }
  · obtain ⟨active, hreplay, hviews⟩ := h.views hpos
    exact ⟨active, replay_blank hreplay hverb, hviews⟩
  · rw [h.length, starts_succ, hverb]
    rfl

end Named

/-- What the parent's books say at each point of the loop. -/
def ParentPc.Books (cfg : Config) (content : List Line) (entries : List Runningprocess)
    (running : Int) : ParentPc M → Prop
  | .top i => Named cfg i entries running 0
  | .register i pid =>
    i < cfg.steps ∧ (cfg.commandsstruct i).command = .start ∧ pid ≠ 0 ∧
      Named cfg i entries running 1
  | .awaitCommand i | .tell i _ | .tellStep i _ | .scan i .. | .clear i _ | .wake i _ | .select i
  | .put i .. | .post i .. | .awaitLine i =>
    i < cfg.steps ∧ Named cfg (i + 1) entries running 0
  | .undefined => content = []
  | _ => True

/-! ## The selection block -/

/-- The replay and `child_pid_name` name the same processes; whatever `rand` returns, the name
chosen leads to a child that waits on the semaphore of its slot, which is the one posted. -/
def State.ViewsAgree (cfg : Config) (s : State M) (i : Nat) : Prop :=
  (∃ active, replay cfg.commandsstruct (i + 1) = some active ∧
    ∀ name : Int, Live s.childPidName name ↔ ∃ k ∈ activeChildren active, k = name) ∧
  ∀ c : Choice, ∃ (name pid : Nat) (k : Fin M),
    chooseRandomActiveChild cfg.commandsstruct cfg.finalStep i c.child = some (name : Int) ∧
    pidChosen s.childPidName name c.junk = pid ∧ pid ≠ 0 ∧
    (s.child pid).pc = .waiting k ∧ s.semaphore k = 0 ∧ s.pidSlot k = pid ∧
    ∀ (content : List Line) (line : Line), content[c.line % content.length]? = some line →
      s.select cfg content i c = .put i k line

section Select

variable {s s' : State M} {cfg : Config} {content : List Line} {i : Nat}

theorem viewsAgree_of_named (h : Phase.parent.Holds s) (hi : i < cfg.steps)
    (hnamed : Named cfg (i + 1) s.childPidName s.running 0) (hrun : s.running > 0) :
    s.ViewsAgree cfg i := by
  obtain ⟨hset, hquiet, -⟩ := h
  -- somebody runs, so the list is not empty and the remainder is an index of it
  obtain ⟨name, hlive⟩ := exists_live_of_inUse (show 0 < inUse s.childPidName by
    have hcount := hnamed.count
    omega)
  have hstarts : 0 < starts cfg.commandsstruct cfg.steps := by
    obtain ⟨e, he, -⟩ := hlive
    have hlen := hnamed.length
    have hmono := starts_mono cfg.commandsstruct (show i + 1 ≤ cfg.steps from hi)
    have := length_pos_of_mem he
    omega
  obtain ⟨active, hreplay, hviews⟩ := hnamed.views hstarts
  have hmem : ∀ name : Int, Live s.childPidName name ↔ ∃ k ∈ activeChildren active, k = name := by
    intro name
    rw [hviews name]
    constructor
    · rintro ⟨k, hk, rfl⟩
      exact ⟨k, mem_filter.mpr ⟨mem_range.mpr (started_of_active hreplay hk).1, hk⟩, rfl⟩
    · rintro ⟨k, hk, rfl⟩
      exact ⟨k, (mem_filter.mp hk).2, rfl⟩
  refine ⟨⟨active, hreplay, hmem⟩, fun c => ?_⟩
  have hpos : 0 < (activeChildren active).length := by
    obtain ⟨k, hk, -⟩ := (hmem name).mp hlive
    exact length_pos_of_mem hk
  have hlt := Nat.mod_lt c.child hpos
  obtain ⟨name, hget⟩ : ∃ name, (activeChildren active)[c.child % (activeChildren active).length]? =
      some name := ⟨_, List.getElem?_eq_getElem hlt⟩
  have hchoose : chooseRandomActiveChild cfg.commandsstruct cfg.finalStep i c.child =
      some (name : Int) := by
    have hle := Config.lt_steps.mp hi
    rw [chooseRandomActiveChild, if_neg (by omega), hreplay, map_some, hget]
  obtain ⟨e, he, hpid, hname⟩ := (hmem name).mpr ⟨name, mem_of_getElem? hget, rfl⟩
  have hchosen : pidChosen s.childPidName name c.junk = e.pid := by
    apply pidChosen_eq _ (.inl ⟨e, he, hname⟩)
    intro a ha haname
    by_cases hae : a = e
    · rw [hae]
    · -- a second entry of the name would be a cleared one, but those have the name 0
      have hapid : a.pid ≠ 0 := by
        intro hzero
        obtain ⟨haz, hterm⟩ := hnamed.cleared a ha hzero
        exact hnamed.named hterm e he hpid (by rw [hname, ← haname, haz])
      have hsymm : Std.Symm fun e e' : Runningprocess => e.pid ≠ 0 → e'.pid ≠ 0 →
          e.name ≠ e'.name :=
        ⟨fun x y hxy hy hx heq => hxy hx hy heq.symm⟩
      exact absurd (haname.trans hname.symm) (hnamed.apart.forall ha he hae hapid hpid)
  obtain ⟨k, hk⟩ := (hset.live e he hpid).resolve_left nofun
  refine ⟨name, e.pid, k, hchoose, hchosen, hpid, (hset.seated hk hpid).1, hquiet.1 k, hk,
    fun content line hline => ?_⟩
  have hindex : chosenIndex s.pidSlot name (pidChosen s.childPidName name c.junk) = k.val := by
    rw [hchosen, ← hk]
    exact chosenIndex_eq hset.inj (hk ▸ hpid)
  simp only [State.select, if_pos hrun, hchoose, hindex, inRange?_eq_some.mpr rfl, hline]

/-! ## Runs -/

theorem books_start (h : (ParentPc.top i : ParentPc M).Books cfg content s.childPidName s.running)
    (hi : i < cfg.steps) (hverb : (cfg.commandsstruct i).command = .start) {fork : Option Nat}
    (hok : s.start i fork = .ok s') : s'.pc.Books cfg content s'.childPidName s'.running := by
  rcases start_cases hok with ⟨-, rfl⟩ | ⟨pid, -, hpos, -, rfl⟩
  · trivial
  · refine ⟨hi, hverb, Nat.ne_of_gt hpos, { h with count := ?_ }⟩
    show s.running + 1 = inUse s.childPidName + 1
    have hcount := h.count
    omega

theorem books_terminate
    (h : (ParentPc.top i : ParentPc M).Books cfg content s.childPidName s.running)
    (hcfg : cfg.WellNamed) (hi : i < cfg.steps)
    (hverb : (cfg.commandsstruct i).command = .terminate) :
    let s' := s.terminate i (cfg.commandsstruct i).process
    s'.pc.Books cfg content s'.childPidName s'.running := by
  have hnext := Named.terminate h hcfg hi hverb
  unfold State.terminate
  cases hfound : terminateEntries (cfg.commandsstruct i).process s.childPidName with
  | mk entries pid =>
    rw [hfound] at hnext
    cases pid with
    | some pid => exact ⟨hi, hnext⟩
    | none =>
      -- no entry has the name, so the loop leaves them as they are
      have hsame := terminateEntries_eq_self (congrArg Prod.snd hfound)
      rw [hfound] at hsame
      rw [hsame] at hnext
      show Named cfg (i + 1) s.childPidName s.running 0
      simpa using hnext

theorem books_select (hphase : Phase.parent.Holds s)
    (h : (ParentPc.select i : ParentPc M).Books cfg content s.childPidName s.running) (c : Choice) :
    (s.select cfg content i c).Books cfg content s.childPidName s.running := by
  by_cases hrun : s.running > 0
  · obtain ⟨name, pid, k, -, -, -, -, -, -, hput⟩ := (viewsAgree_of_named hphase h.1 h.2 hrun).2 c
    cases hline : content[c.line % content.length]? with
    | some line =>
      rwa [hput content line hline]
    | none =>
      have hempty : content = [] := by
        by_contra hne
        have hlt := Nat.mod_lt c.line (length_pos_iff.mpr hne)
        rw [List.getElem?_eq_none_iff] at hline
        omega
      simp only [State.select, if_pos hrun, hline]
      split
      · exact hempty
      · split
        · contradiction
        · exact hempty
  · rw [State.select, if_neg hrun]
    exact h.2

theorem books_step (hinv : s.Inv) (h : s.pc.Books cfg content s.childPidName s.running)
    (hcfg : cfg.WellNamed)
    (hread : ∀ i, (cfg.commandsstruct i).commandExists = true ∨ cfg.commandsstruct i = .none)
    {e : Event} (hok : s.step cfg content e = .ok s') :
    s'.pc.Books cfg content s'.childPidName s'.running := by
  cases e with
  | child q =>
    obtain ⟨hpc, hentries, hrunning⟩ := childStep_parent hok
    rwa [hpc, hentries, hrunning]
  | parent c =>
    change s.parentStep cfg content c = .ok s' at hok
    cases hpc : s.pc with
    | top i =>
      rw [hpc] at h
      cases parentStep_top hpc hok with
      | start hlast _ hverb hstart => exact books_start h (Config.lt_steps.mpr hlast) hverb hstart
      | terminate hlast _ hverb => exact books_terminate h hcfg (Config.lt_steps.mpr hlast) hverb
      | leave | finish => trivial
      | pass hlast hexists =>
        have hblank : (cfg.commandsstruct i).command = .blank := by
          rw [(hread i).resolve_left (by rw [hexists]; nofun)]
          rfl
        exact ⟨Config.lt_steps.mpr hlast, Named.blank h hblank⟩
    | register i pid =>
      rw [hpc] at h
      obtain ⟨hi, hverb, hpid, hnamed⟩ := h
      have hnext := hnamed.register hcfg hi hverb hpid
      -- there is room for the entry: the table has at most that many start commands
      have hroom : s.childPidName.length < MAX_CHILDREN := by
        have hfew := hcfg.1.1
        have hmono := starts_mono cfg.commandsstruct (show i + 1 ≤ cfg.steps from hi)
        have hlen := hnext.length
        rw [length_append, length_singleton] at hlen
        omega
      simp only [State.parentStep, hpc, if_pos hroom, Except.ok.injEq] at hok
      exact hok ▸ ⟨hi, hnext⟩
    | select i =>
      rw [hpc] at h
      simp only [State.parentStep, hpc, Except.ok.injEq] at hok
      exact hok ▸ books_select (hinv.pastWait (by rw [hpc]; trivial)) h c
    | awaitLine i =>
      rw [hpc] at h
      simp only [State.parentStep, hpc] at hok
      split at hok
      · exact Except.ok.inj hok ▸ h.2
      · cases hok
    | _ =>
      -- the books stay as they are, or are closed
      rw [hpc] at h
      simp only [State.parentStep, hpc] at hok
      repeat' split at hok
      all_goals first
        | exact Except.ok.inj hok ▸ h
        | cases hok

theorem books_init : (State.init M).pc.Books cfg content (State.init M).childPidName
    (State.init M).running :=
  { views := fun _ => ⟨_, rfl, fun _ => ⟨nofun, nofun⟩⟩
    apart := .nil
    cleared := nofun
    named := nofun
    length := rfl
    count := rfl }

theorem State.Reached.books {file : List Char} (hread : readConfig file = .ok cfg)
    (hcfg : cfg.WellNamed) (h : s.Reached cfg content) :
    s.pc.Books cfg content s.childPidName s.running := by
  have hboth : s.Inv ∧ s.pc.Books cfg content s.childPidName s.running := by
    apply Reach.invariant h ⟨State.inv_init, books_init⟩
    intro s e s' hs _ hok
    exact ⟨hs.1.step hok, books_step hs.1 hs.2 hcfg (eq_none_of_readConfig hread) hok⟩
  exact hboth.2

end Select

/-- In a run of a table that meets the condition the two views agree wherever the selection block is
reached with processes running, and only an empty text makes the program's behaviour undefined. -/
theorem views_agree {s : State M} {cfg : Config} {content : List Line} {file : List Char}
    (hread : readConfig file = .ok cfg) (hcfg : cfg.WellNamed) (h : s.Reached cfg content) :
    (∀ i, s.pc = .select i → s.running > 0 → s.ViewsAgree cfg i) ∧
      (content ≠ [] → s.pc ≠ .undefined) := by
  have hbooks := h.books hread hcfg
  constructor
  · intro i hpc hrun
    rw [hpc] at hbooks
    exact viewsAgree_of_named (h.inv.pastWait (by rw [hpc]; trivial)) hbooks.1 hbooks.2 hrun
  · intro hne hpc
    rw [hpc] at hbooks
    exact hne hbooks

theorem views_agree_one : ∃ cfg, readConfig "0 C1 S\n5 EXIT\n".toList = .ok cfg ∧ cfg.WellNamed ∧
    ∃ s : State 2, s.Reached cfg [hi] ∧ s.pc = .select 0 ∧ s.running > 0 ∧ s.ViewsAgree cfg 0 := by
  obtain ⟨cfg, hread, s, hs, hp⟩ := exists_reached "0 C1 S\n5 EXIT\n".toList [hi] (startEvents 7 0)
    (fun cfg (s : State 2) => decide (cfg.WellNamed ∧ s.pc = .select 0 ∧ s.running > 0))
    (by decide +kernel)
  obtain ⟨hcfg, hpc, hrun⟩ := of_decide_eq_true hp
  exact ⟨cfg, hread, hcfg, s, hs, hpc, hrun, (views_agree hread hcfg hs).1 0 hpc hrun⟩

/-- The events of a terminate command for `p` in slot `n`. -/
def terminateEvents (p n : Nat) : List Event :=
  parentSteps (n + 6) ++ List.replicate 4 (.child p) ++ parentSteps 1

-- `C0` runs alone after `C1` was terminated; its number is that of the cleared entry.
theorem cleared_entry_is_chosen : ∃ cfg,
    readConfig "0 C0 S\n1 C1 S\n2 C1 T\n3 EXIT\n".toList = .ok cfg ∧
    ∃ s : State 2, s.Reached cfg [hi] ∧ s.pc = .select 2 ∧ s.running > 0 ∧
    ¬ s.ViewsAgree cfg 2 := by
  obtain ⟨cfg, hread, s, hs, hp⟩ := exists_reached "0 C0 S\n1 C1 S\n2 C1 T\n3 EXIT\n".toList [hi]
    (startEvents 7 0 ++ lineEvents 7 ++ startEvents 8 1 ++ lineEvents 7 ++ terminateEvents 8 1)
    (fun cfg (s : State 2) => decide (s.pc = .select 2 ∧ s.running > 0 ∧
      chooseRandomActiveChild cfg.commandsstruct cfg.finalStep 2 0 = some 0 ∧
      pidChosen s.childPidName 0 0 = 0)) (by decide +kernel)
  obtain ⟨hpc, hrun, hchoose, hchosen⟩ := of_decide_eq_true hp
  refine ⟨cfg, hread, s, hs, hpc, hrun, fun hagree => ?_⟩
  obtain ⟨name, pid, k, hname, hpid, hne, -⟩ := hagree.2 ⟨none, 0, 0, 0⟩
  rw [hchoose] at hname
  rw [← Option.some.inj hname, hchosen] at hpid
  exact hne (Int.ofNat.inj hpid.symm)

end OsProjects.Dispatch
