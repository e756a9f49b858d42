import Xv6.Sched.Waiting

/-!
# What a process slot carries over

`freeproc` clears a slot, `exit` has closed its files before, and `allocproc` relies on both.  `kill` compares
pids of all slots, and a free slot has pid 0: `kill(0)` finds it, and the next process in it is born killed.

* `FreeSlot`, `FilesAt`, `Slots` — a free slot is clean.
* `CleanSlots` — what is wanted of a run: `allocproc` returns clean slots, and `kill` changes processes only.
* `slots_clean_iff` — a run is clean exactly when no `kill` in it finds a free slot, and only pid 0 finds one.
* `killZero_born_killed` — a run in which a process is born killed.
-/

namespace Xv6.Sched

open Function

variable {κ : Type}

/-- Nothing is left of the process before. -/
structure Leftover.Clean (l : Leftover) : Prop where
  killed : l.killed = false
  chan : l.chan = .null
  xstate : l.xstate = 0
  parent : l.parent = none
  ofile : ∀ fd, fd < NOFILE → l.ofile fd = none
  cwd : l.cwd = none

/-- `kill` has found a process with its pid, or nothing. -/
def Killed.Ok (k : Killed) : Prop := ∀ st p, k.found = some (st, p) → st ≠ .UNUSED ∧ p = k.pid

structure CleanSlots (s : Sys κ) : Prop where
  allocated : ∀ l ∈ s.allocated, l.Clean
  kills : ∀ k ∈ s.kills, k.Ok

/-- The action is not a `kill` of a free slot. -/
def NoFreeKill (N : Nat) (s : Sys κ) (a : Act κ) : Prop :=
  ∀ c i pid j, a = .kill c i (.hit pid j) → (KillAct.hit pid j).enabled N s c i → s.state j ≠ .UNUSED

structure FreeSlot (s : Sys κ) (i : Nat) : Prop where
  pid : s.pid i = 0
  killed : s.killed i = false
  chan : s.chan i = .null
  xstate : s.xstate i = 0
  ofile : ∀ fd, fd < NOFILE → s.ofile i fd = none
  cwd : s.cwd i = none

/-- What `exit` has closed. -/
def FilesAt (s : Sys κ) (i : Nat) : Base → Prop
  | .closing _ fd => ∀ f, f < fd → s.ofile i f = none
  | .cwd _ => ∀ f, f < NOFILE → s.ofile i f = none
  | .exitLock _ => (∀ f, f < NOFILE → s.ofile i f = none) ∧ s.cwd i = none
  | .reparent _ _ => (∀ f, f < NOFILE → s.ofile i f = none) ∧ s.cwd i = none
  | .exitOwn _ => (∀ f, f < NOFILE → s.ofile i f = none) ∧ s.cwd i = none
  | .zombie => (∀ f, f < NOFILE → s.ofile i f = none) ∧ s.cwd i = none
  | _ => True

structure Slots (s : Sys κ) : Prop where
  free : ∀ i, s.state i = .UNUSED → FreeSlot s i
  files : ∀ i, FilesAt s i (s.base i)
  zombie : ∀ i, s.state i = .ZOMBIE → s.base i = .zombie
  clean : CleanSlots s

/-! ## Frames -/

/-- A slot that a step leaves. -/
structure SameSlot (s s' : Sys κ) (k : Nat) : Prop where
  pid : s'.pid k = s.pid k
  killed : s'.killed k = s.killed k
  chan : s'.chan k = s.chan k
  xstate : s'.xstate k = s.xstate k
  ofile : s'.ofile k = s.ofile k
  cwd : s'.cwd k = s.cwd k
  base : s'.base k = s.base k
  unused : s'.state k = .UNUSED → s.state k = .UNUSED
  zombie : s'.state k = .ZOMBIE → s.state k = .ZOMBIE

/-- A slot of a process after a step. -/
structure OwnSlot (s' : Sys κ) (k : Nat) : Prop where
  used : s'.state k ≠ .UNUSED
  files : FilesAt s' k (s'.base k)
  zombie : s'.state k = .ZOMBIE → s'.base k = .zombie

/-- A slot that a step frees. -/
structure FreedSlot (s' : Sys κ) (k : Nat) : Prop where
  unused : s'.state k = .UNUSED
  free : FreeSlot s' k
  files : FilesAt s' k (s'.base k)

theorem FilesAt.congr {s s' : Sys κ} {k : Nat} {b : Base} (h : FilesAt s k b) (hf : s'.ofile k = s.ofile k)
    (hc : s'.cwd k = s.cwd k) : FilesAt s' k b := by
  cases b with
  | closing st fd | cwd st =>
    show ∀ f, _ → s'.ofile k f = none
    rw [hf]
    exact h
  | exitLock st | reparent st j | exitOwn st | zombie =>
    show (∀ f, _ → s'.ofile k f = none) ∧ s'.cwd k = none
    rw [hf, hc]
    exact h
  | _ => trivial

theorem Slots.frame {s s' : Sys κ} (h : Slots s) (hk : ∀ k, SameSlot s s' k ∨ OwnSlot s' k ∨ FreedSlot s' k)
    (hclean : CleanSlots s') : Slots s' where
  free k hst := by
    rcases hk k with hsame | hown | hfreed
    · obtain ⟨hpid, hkilled, hchan, hx, hof, hcwd⟩ := h.free k (hsame.unused hst)
      exact ⟨hsame.pid.trans hpid, hsame.killed.trans hkilled, hsame.chan.trans hchan, hsame.xstate.trans hx,
        by rw [hsame.ofile]; exact hof, hsame.cwd.trans hcwd⟩
    · exact absurd hst hown.used
    · exact hfreed.free
  files k := by
    rcases hk k with hsame | hown | hfreed
    · rw [hsame.base]
      exact (h.files k).congr hsame.ofile hsame.cwd
    · exact hown.files
    · exact hfreed.files
  zombie k hst := by
    rcases hk k with hsame | hown | hfreed
    · rw [hsame.base]
      exact h.zombie k (hsame.zombie hst)
    · exact hown.zombie hst
    · rw [hfreed.unused] at hst
      cases hst
  clean := hclean

/-- A step on slot `i`. -/
theorem Slots.own {s s' : Sys κ} {i : Nat} (h : Slots s) (hk : ∀ k, k ≠ i → SameSlot s s' k) (hi : OwnSlot s' i)
    (ha : s'.allocated = s.allocated) (hkl : s'.kills = s.kills) : Slots s' := by
  refine h.frame (fun k => ?_) ⟨by rw [ha]; exact h.clean.allocated, by rw [hkl]; exact h.clean.kills⟩
  by_cases hki : k = i
  · rw [hki]
    exact Or.inr (Or.inl hi)
  · exact Or.inl (hk k hki)

theorem Slots.still {s s' : Sys κ} (h : Slots s) (hk : ∀ k, SameSlot s s' k) (ha : s'.allocated = s.allocated)
    (hkl : s'.kills = s.kills) : Slots s' :=
  h.frame (fun k => Or.inl (hk k)) ⟨by rw [ha]; exact h.clean.allocated, by rw [hkl]; exact h.clean.kills⟩

/-! ## Steps -/

section steps

variable [DecidableEq κ] {N : Nat} {s : Sys κ} {c : κ} {i : Nat}

theorem slots_sched {a : SchedAct} (h : Slots s) : Slots (a.next N s c) := by
  cases a with
  | choose i =>
    exact h.still (fun k => ⟨rfl, rfl, rfl, rfl, rfl, rfl, rfl, fun hk => eq_of_update hk (by decide),
      fun hk => eq_of_update hk (by decide)⟩) rfl rfl
  | skip i | load i | switch i | kvminithart i | leave i =>
    exact h.still (fun k => ⟨rfl, rfl, rfl, rfl, rfl, rfl, rfl, id, id⟩) rfl rfl

theorem slots_irq {a : IrqAct} (h : Slots s) : Slots (a.next s c) := by
  cases a with
  | rouse ch j =>
    exact h.still (fun k => ⟨rfl, rfl, rfl, rfl, rfl, rfl, rfl, fun hk => eq_of_update hk (by decide),
      fun hk => eq_of_update hk (by decide)⟩) rfl rfl
  | _ => exact h.still (fun k => ⟨rfl, rfl, rfl, rfl, rfl, rfl, rfl, id, id⟩) rfl rfl

omit [DecidableEq κ] in
/-- A process that runs enters another part of its call. -/
theorem OwnSlot.of_running {s' : Sys κ} (hst : s'.state i = .RUNNING) (hf : FilesAt s' i (s'.base i)) : OwnSlot s' i :=
  ⟨by simp [hst], hf, by simp [hst]⟩

omit [DecidableEq κ] in
theorem filesAt_update {s' : Sys κ} {b : Base} (hb : s'.base = update s.base i b) (hf : FilesAt s' i b) :
    FilesAt s' i (s'.base i) := by
  rwa [hb, update_self]

theorem slots_thread {a : ThreadAct} (hs : SysInv s) (h : Slots s) (he : a.enabled N s c i) : Slots (a.next s c i) := by
  cases a with
  | trap | usertrapret =>
    have hst : s.state i = .RUNNING := (hs.core.at_runOk he.at).1
    exact h.own (fun k hk => ⟨rfl, rfl, rfl, rfl, rfl, rfl, update_of_ne hk _ _, id, id⟩)
      (.of_running hst (filesAt_update rfl trivial)) rfl rfl
  | setFile fd f =>
    have hst : s.state i = .RUNNING := (hs.core.at_runOk he.1.at).1
    refine h.own (fun k hk => ⟨rfl, rfl, rfl, rfl, update_of_ne hk _ _, rfl, rfl, id, id⟩)
      (.of_running hst ?_) rfl rfl
    rw [show ((ThreadAct.setFile fd f).next s c i).base i = .kernel from he.1.2.2.1]
    trivial
  | chdir d =>
    have hst : s.state i = .RUNNING := (hs.core.at_runOk he.at).1
    refine h.own (fun k hk => ⟨rfl, rfl, rfl, rfl, rfl, update_of_ne hk _ _, rfl, id, id⟩)
      (.of_running hst ?_) rfl rfl
    rw [show ((ThreadAct.chdir d).next s c i).base i = .kernel from he.2.2.1]
    trivial
  | setkilled =>
    have hst : s.state i = .RUNNING := (hs.core.at_runOk he.1.at).1
    exact h.own (fun k hk => ⟨rfl, update_of_ne hk _ _, rfl, rfl, rfl, rfl, rfl, id, id⟩)
      (.of_running hst ((h.files i).congr rfl rfl)) rfl rfl
  | rouse ch j | yield t =>
    exact h.still (fun k => ⟨rfl, rfl, rfl, rfl, rfl, rfl, rfl, fun hk => eq_of_update hk (by decide),
      fun hk => eq_of_update hk (by decide)⟩) rfl rfl
  | doze ch lk =>
    refine h.own (fun k hk => ⟨rfl, rfl, update_of_ne hk _ _, rfl, rfl, rfl, rfl,
      fun hk => eq_of_update hk (by decide), fun hk => eq_of_update hk (by decide)⟩) ⟨?_, (h.files i).congr rfl rfl, ?_⟩
      rfl rfl
    · rw [show ((ThreadAct.doze ch lk).next s c i).state i = .SLEEPING from update_self ..]
      decide
    · rw [show ((ThreadAct.doze ch lk).next s c i).state i = .SLEEPING from update_self ..]
      simp
  | rise ch lk =>
    have hst : s.state i = .RUNNING := (hs.core.at_runOk he.1.at).1
    exact h.own (fun k hk => ⟨rfl, rfl, update_of_ne hk _ _, rfl, rfl, rfl, rfl, id, id⟩)
      (.of_running hst ((h.files i).congr rfl rfl)) rfl rfl
  | _ => exact h.still (fun k => ⟨rfl, rfl, rfl, rfl, rfl, rfl, rfl, id, id⟩) rfl rfl

omit [DecidableEq κ] in
theorem slots_kill {a : KillAct} (hs : SysInv s) (h : Slots s) (he : a.enabled N s c i)
    (hok : ∀ pid j, a = .hit pid j → s.state j ≠ .UNUSED) : Slots (a.next s i) := by
  cases a with
  | call pid =>
    exact h.own (fun k hk => ⟨rfl, rfl, rfl, rfl, rfl, rfl, update_of_ne hk _ _, id, id⟩) (.of_running (hs.core.at_runOk he.at).1 (filesAt_update rfl trivial)) rfl rfl
  | miss pid j =>
    exact h.own (fun k hk => ⟨rfl, rfl, rfl, rfl, rfl, rfl, update_of_ne hk _ _, id, id⟩) (.of_running (hs.core.at_runOk he.1.at).1 (filesAt_update rfl trivial)) rfl rfl
  | fail pid =>
    have hst : s.state i = .RUNNING := (hs.core.at_runOk he.at).1
    refine h.frame (fun k => ?_) ⟨h.clean.allocated, fun k hk => ?_⟩
    · by_cases hki : k = i
      · rw [hki]
        exact Or.inr (Or.inl (.of_running hst (filesAt_update rfl trivial)))
      · exact Or.inl ⟨rfl, rfl, rfl, rfl, rfl, rfl, update_of_ne hki _ _, id, id⟩
    · rcases List.mem_append.1 hk with hk | hk
      · exact h.clean.kills k hk
      · rw [List.mem_singleton.1 hk]
        rintro st p ⟨⟩
  | hit pid j =>
    have hused := hok pid j rfl
    have hsti : s.state i = .RUNNING := (hs.core.at_runOk he.1.at).1
    -- `kill` makes no slot free and nothing a `ZOMBIE`
    have hst : ∀ k st, st ≠ .RUNNABLE →
        (if s.state j = .SLEEPING then update s.state j .RUNNABLE else s.state) k = st → s.state k = st := by
      intro k st hne hk
      split at hk
      · exact eq_of_update hk hne.symm
      · exact hk
    rw [KillAct.next, Sys.killSlot_eq]
    refine h.frame (fun k => ?_) ⟨h.clean.allocated, fun k hk => ?_⟩
    · by_cases hki : k = i
      · subst hki
        refine Or.inr (Or.inl ⟨fun hk => ?_, filesAt_update rfl trivial, fun hk => ?_⟩)
        · have := hst k _ (by decide) hk
          rw [hsti] at this
          cases this
        · have := hst k _ (by decide) hk
          rw [hsti] at this
          cases this
      · by_cases hkj : k = j
        · subst hkj
          refine Or.inr (Or.inl ⟨fun hk => hused (hst k _ (by decide) hk), ?_, fun hk => ?_⟩)
          · show FilesAt _ k (update s.base i .kernel k)
            rw [update_of_ne hki]
            exact (h.files k).congr rfl rfl
          · show update s.base i .kernel k = .zombie
            rw [update_of_ne hki]
            exact h.zombie k (hst k _ (by decide) hk)
        · exact Or.inl ⟨rfl, update_of_ne hkj _ _, rfl, rfl, rfl, rfl, update_of_ne hki _ _,
            hst k _ (by decide), hst k _ (by decide)⟩
    · rcases List.mem_append.1 hk with hk | hk
      · exact h.clean.kills k hk
      · rw [List.mem_singleton.1 hk]
        rintro st p ⟨⟩
        exact ⟨hused, he.2.2.2⟩

theorem slots_exit {a : ExitAct} (hs : SysInv s) (h : Slots s) (he : a.enabled N s c i) : Slots (a.next s c i) := by
  have hfiles : ∀ {b : Base}, s.Runs c i b .run → s.state i = .RUNNING ∧ FilesAt s i b := fun hr =>
    ⟨(hs.core.at_runOk hr.at).1, hr.2.2.1 ▸ h.files i⟩
  cases a with
  | call st =>
    exact h.own (fun k hk => ⟨rfl, rfl, rfl, rfl, rfl, rfl, update_of_ne hk _ _, id, id⟩) (.of_running (hfiles he.1).1 (filesAt_update rfl fun f hf => absurd hf (Nat.not_lt_zero f))) rfl rfl
  | close st fd =>
    obtain ⟨hst, hf⟩ := hfiles he.1
    refine h.own (fun k hk => ⟨rfl, rfl, rfl, rfl, update_of_ne hk _ _, rfl, update_of_ne hk _ _, id, id⟩)
      (.of_running hst (filesAt_update rfl fun f hlt => ?_)) rfl rfl
    show update s.ofile i (update (s.ofile i) fd none) i f = none
    rw [update_self]
    by_cases hfd : f = fd
    · rw [hfd, update_self]
    · rw [update_of_ne hfd]
      exact hf f (by omega)
  | closed st | given st =>
    obtain ⟨hst, hf⟩ := hfiles he
    exact h.own (fun k hk => ⟨rfl, rfl, rfl, rfl, rfl, rfl, update_of_ne hk _ _, id, id⟩) (.of_running hst (filesAt_update rfl hf)) rfl rfl
  | iput st =>
    obtain ⟨hst, hf⟩ := hfiles he
    exact h.own (fun k hk => ⟨rfl, rfl, rfl, rfl, rfl, update_of_ne hk _ _, update_of_ne hk _ _, id, id⟩)
      (.of_running hst (filesAt_update rfl ⟨hf, update_self ..⟩)) rfl rfl
  | lock st | keep st j | give st j =>
    obtain ⟨hst, hf⟩ := hfiles he.1
    exact h.own (fun k hk => ⟨rfl, rfl, rfl, rfl, rfl, rfl, update_of_ne hk _ _, id, id⟩) (.of_running hst (filesAt_update rfl hf)) rfl rfl
  | zombie st =>
    obtain ⟨-, hf⟩ := hfiles he.1
    have hst : ((ExitAct.zombie st).next s c i).state i = .ZOMBIE := update_self ..
    exact h.own (fun k hk => ⟨rfl, rfl, rfl, update_of_ne hk _ _, rfl, rfl, update_of_ne hk _ _,
      fun hst => eq_of_update hst (by decide), fun hst => by
        have hst' : update s.state i .ZOMBIE k = .ZOMBIE := hst
        rwa [update_of_ne hk] at hst'⟩)
      ⟨by simp [hst], filesAt_update rfl hf, fun _ => update_self ..⟩ rfl rfl

omit [DecidableEq κ] in
/-- A step of process `i` that frees slot `j`. -/
theorem Slots.freed {s' : Sys κ} {j : Nat} (h : Slots s) (hi : OwnSlot s' i) (hj : FreedSlot s' j)
    (hk : ∀ k, k ≠ i → k ≠ j → SameSlot s s' k) (hclean : CleanSlots s') : Slots s' := by
  refine h.frame (fun k => ?_) hclean
  by_cases hki : k = i
  · rw [hki]
    exact Or.inr (Or.inl hi)
  · by_cases hkj : k = j
    · rw [hkj]
      exact Or.inr (Or.inr hj)
    · exact Or.inl (hk k hki hkj)

theorem slots_wait {a : WaitAct} (hs : SysInv s) (h : Slots s) (he : a.enabled N s c i) : Slots (a.next s c i) := by
  cases a with
  | reap j b =>
    obtain ⟨hr, -, -, hl, hst, -⟩ := he
    have hsti : s.state i = .RUNNING := (hs.core.at_runOk hr.at).1
    have hij : i ≠ j := by
      rintro rfl
      rw [hst] at hsti
      cases hsti
    have hfj := h.files j
    rw [h.zombie j hst] at hfj
    refine h.freed (i := i) (j := j) (.of_running ?_ (filesAt_update rfl trivial)) ⟨update_self .., ?_, ?_⟩
      (fun k hki hkj => ⟨update_of_ne hkj _ _, update_of_ne hkj _ _, update_of_ne hkj _ _, update_of_ne hkj _ _, rfl, rfl, update_of_ne hki _ _, ?_, ?_⟩)
      ⟨h.clean.allocated, h.clean.kills⟩
    · exact (update_of_ne hij _ _).trans hsti
    · exact ⟨update_self .., update_self .., update_self .., update_self .., hfj.1, hfj.2⟩
    · show FilesAt _ j (update s.base i .kernel j)
      rw [update_of_ne hij.symm, h.zombie j hst]
      exact hfj
    · show update s.state j .UNUSED k = .UNUSED → _
      rw [update_of_ne hkj]
      exact id
    · exact fun hz => eq_of_update hz (by decide)
  | call | other j b | alive j b | bad j b | childless | killed | notKilled | sleep =>
    exact h.own (fun k hk => ⟨rfl, rfl, rfl, rfl, rfl, rfl, update_of_ne hk _ _, id, id⟩) (.of_running (hs.core.at_runOk he.1.at).1 (filesAt_update rfl trivial)) rfl rfl

theorem slots_fork {a : ForkAct} (hs : SysInv s) (hf : Family N s) (h : Slots s) (he : a.enabled N s c i) :
    Slots (a.next s c i) := by
  have hne : ∀ {j : Nat}, s.Runs c i (.alloc j) .run → s.state j = .UNUSED → s.state i = .RUNNING ∧ i ≠ j := by
    intro j hr hst
    have hsti : s.state i = .RUNNING := (hs.core.at_runOk hr.at).1
    refine ⟨hsti, ?_⟩
    rintro rfl
    rw [hst] at hsti
    cases hsti
  have hclean : ∀ {j : Nat}, s.state j = .UNUSED → (s.leftover j).Clean := by
    intro j hst
    obtain ⟨-, hkilled, hchan, hx, hof, hcwd⟩ := h.free j hst
    exact ⟨hkilled, hchan, hx, hf.tree.unused j hst, hof, hcwd⟩
  have hgrown : ∀ {j : Nat}, s.state j = .UNUSED → ∀ l ∈ s.allocated ++ [s.leftover j], l.Clean := by
    intro j hst l hl
    rcases List.mem_append.1 hl with hl | hl
    · exact h.clean.allocated l hl
    · rw [List.mem_singleton.1 hl]
      exact hclean hst
  cases a with
  | call | full =>
    exact h.own (fun k hk => ⟨rfl, rfl, rfl, rfl, rfl, rfl, update_of_ne hk _ _, id, id⟩) (.of_running (hs.core.at_runOk he.at).1 (filesAt_update rfl trivial)) rfl rfl
  | used j | link j =>
    exact h.own (fun k hk => ⟨rfl, rfl, rfl, rfl, rfl, rfl, update_of_ne hk _ _, id, id⟩) (.of_running (hs.core.at_runOk he.1.at).1 (filesAt_update rfl trivial)) rfl rfl
  | fail j | leak j =>
    obtain ⟨hr, -, -, hst⟩ := he
    obtain ⟨hsti, hij⟩ := hne hr hst
    have hfree := h.free j hst
    refine h.freed (i := i) (j := j) (.of_running ?_ (filesAt_update rfl trivial)) ⟨update_self .., ?_, ?_⟩
      (fun k hki hkj => ⟨update_of_ne hkj _ _, update_of_ne hkj _ _, update_of_ne hkj _ _, update_of_ne hkj _ _, rfl, rfl, update_of_ne hki _ _, ?_, ?_⟩)
      ⟨h.clean.allocated, h.clean.kills⟩
    · exact (update_of_ne hij _ _).trans hsti
    · exact ⟨update_self .., update_self .., update_self .., update_self ..,
        hfree.ofile, hfree.cwd⟩
    · show FilesAt _ j (update s.base i .kernel j)
      rw [update_of_ne hij.symm]
      exact (h.files j).congr rfl rfl
    · show update s.state j .UNUSED k = .UNUSED → _
      rw [update_of_ne hkj]
      exact id
    · exact fun hz => eq_of_update hz (by decide)
  | nomem j a b =>
    obtain ⟨hr, -, -, hst, -⟩ := he
    obtain ⟨hsti, hij⟩ := hne hr hst
    have hfree := h.free j hst
    have hstate : ((ForkAct.nomem j a b).next s c i).state = update s.state j .UNUSED := update_idem ..
    have hbase : ((ForkAct.nomem j a b).next s c i).base =
      update (update s.base j .kernel) i .kernel := rfl
    have hpid : ((ForkAct.nomem j a b).next s c i).pid = update s.pid j 0 := update_idem ..
    refine h.freed (i := i) (j := j) (.of_running ?_ ?_) ⟨update_self .., ?_, ?_⟩ (fun k hki hkj => ?_)
      ⟨hgrown hst, h.clean.kills⟩
    · rw [hstate, update_of_ne hij]
      exact hsti
    · rw [hbase, update_self]
      trivial
    · exact ⟨update_self .., update_self .., update_self .., update_self ..,
        hfree.ofile, hfree.cwd⟩
    · rw [hbase, update_of_ne hij.symm, update_self]
      trivial
    · refine ⟨by rw [hpid, update_of_ne hkj], update_of_ne hkj _ _, update_of_ne hkj _ _, update_of_ne hkj _ _, rfl, rfl, by rw [hbase, update_of_ne hki, update_of_ne hkj], ?_, ?_⟩
      · rw [hstate, update_of_ne hkj]
        exact id
      · rw [hstate, update_of_ne hkj]
        exact id
  | copy j a b =>
    obtain ⟨hr, -, -, hst, -⟩ := he
    obtain ⟨hsti, hij⟩ := hne hr hst
    have hstate : ((ForkAct.copy j a b).next s c i).state = update s.state j .USED := rfl
    have hbase : ((ForkAct.copy j a b).next s c i).base =
      update (update s.base j .kernel) i (.link j) := rfl
    refine h.frame (fun k => ?_) ⟨hgrown hst, h.clean.kills⟩
    by_cases hki : k = i
    · refine Or.inr (Or.inl (.of_running ?_ ?_))
      · rw [hki, hstate, update_of_ne hij]
        exact hsti
      · rw [hki, hbase, update_self]
        trivial
    · by_cases hkj : k = j
      · refine Or.inr (Or.inl ⟨?_, ?_, ?_⟩)
        · rw [hkj, hstate, update_self]
          decide
        · rw [hkj, hbase, update_of_ne hij.symm, update_self]
          trivial
        · rw [hkj, hstate, update_self]
          simp
      · refine Or.inl ⟨update_of_ne hkj _ _, rfl, rfl, rfl, update_of_ne hkj _ _, update_of_ne hkj _ _, by rw [hbase, update_of_ne hki, update_of_ne hkj], ?_, ?_⟩
        · rw [hstate, update_of_ne hkj]
          exact id
        · rw [hstate, update_of_ne hkj]
          exact id
  | start j =>
    have hsti : s.state i = .RUNNING := (hs.core.at_runOk he.1.at).1
    have hused := hs.child.used i j (by rw [he.1.2.2.1]; rfl)
    refine h.own (fun k hk => ⟨rfl, rfl, rfl, rfl, rfl, rfl, update_of_ne hk _ _,
      fun hst => eq_of_update hst (by decide), fun hst => eq_of_update hst (by decide)⟩)
      (.of_running ?_ (filesAt_update rfl trivial)) rfl rfl
    refine (update_of_ne ?_ _ _).trans hsti
    rintro rfl
    rw [hsti] at hused
    cases hused

/-- **One step keeps free slots clean, unless it kills one.** -/
theorem Slots.step {a : Act κ} (hs : SysInv s) (hf : Family N s) (h : Slots s) (he : a.enabled N s)
    (hok : NoFreeKill N s a) : Slots (a.next N s) := by
  cases a with
  | sched c a => exact slots_sched h
  | irq c a => exact slots_irq h
  | thread c i a => exact slots_thread hs h he
  | kill c i a =>
    refine slots_kill hs h he ?_
    rintro pid j rfl
    exact hok c i pid j rfl he
  | fork c i a => exact slots_fork hs hf h he
  | exit c i a => exact slots_exit hs h he
  | wait c i a => exact slots_wait hs h he

omit [DecidableEq κ] in
theorem Slots.of_init (h : Init N s) : Slots s where
  free i hi := by
    have hne : i ≠ initproc := by
      rintro rfl
      rw [h.first.1] at hi
      cases hi
    obtain ⟨hkilled, hchan, hx, -⟩ := h.clean i
    exact ⟨(h.unused i hne).2.1, hkilled, hchan, hx, fun fd _ => (h.files i).2 fd, (h.files i).1 hne⟩
  files i := by
    rw [(h.at_rest i).2.2]
    trivial
  zombie i hi := by
    rcases (h.at_rest i).1 with hst | hst <;> rw [hst] at hi <;> cases hi
  clean := by
    obtain ⟨-, -, -, ha, hk⟩ := h.records
    exact ⟨by simp [ha], by simp [hk]⟩

omit [DecidableEq κ] in
/-- Only pid 0 finds a free slot. -/
theorem Slots.noFreeKill {a : Act κ} (h : Slots s) (ha : ∀ c i j, a ≠ .kill c i (.hit 0 j)) : NoFreeKill N s a := by
  rintro c i pid j rfl ⟨-, -, -, hpid⟩ hst
  rw [(h.free j hst).pid] at hpid
  exact ha c i j (by rw [hpid])

/-- A `kill` of a free slot is seen at once. -/
theorem freeKill_dirty {a : Act κ} (hbad : ¬ NoFreeKill N s a) : ∃ s', step N s a = some s' ∧ ¬ CleanSlots s' := by
  unfold NoFreeKill at hbad
  push Not at hbad
  obtain ⟨c, i, pid, j, rfl, he, hst⟩ := hbad
  refine ⟨_, step_eq_some.2 ⟨he, rfl⟩, fun hclean => ?_⟩
  have hmem : (⟨pid, some (s.state j, s.pid j)⟩ : Killed) ∈ (Act.next N s (.kill c i (.hit pid j))).kills :=
    List.mem_append_right _ (List.mem_singleton.2 rfl)
  exact (hclean.kills _ hmem _ _ rfl).1 hst

/-- **A slot carries nothing over exactly when no `kill` finds a free slot.**  A run without `kill(0)` is such a
run; and `kill` changes no other slot than the one it finds. -/
theorem slots_clean_iff (h : Init N s) (acts : List (Act κ)) :
    (Transition.Along (step N) CleanSlots s acts ↔ Transition.GuardedActs (step N) (NoFreeKill N) s acts) ∧
    ((∀ c i j, Act.kill c i (.hit 0 j) ∉ acts) → Transition.Along (step N) CleanSlots s acts) ∧
    ∀ (t : Sys κ) (pid : Int) (j k : Nat), k ≠ j →
      (t.killSlot pid j).killed k = t.killed k ∧ (t.killSlot pid j).state k = t.state k := by
  have hstep : ∀ (s : Sys κ) a s', SysInv s ∧ Family N s ∧ Slots s → NoFreeKill N s a → step N s a = some s' →
      SysInv s' ∧ Family N s' ∧ Slots s' := by
    rintro s a s' ⟨hs, hf, hslots⟩ hok hs'
    obtain ⟨he, rfl⟩ := step_eq_some.1 hs'
    exact ⟨hs.step he, hf.step hs he, hslots.step hs hf he hok⟩
  refine ⟨?_, fun hno => ?_, fun t pid j k hk => ?_⟩
  · exact Transition.along_iff_guardedActs (fun _ hI => hI.2.2.clean) hstep (fun _ _ _ hbad => freeKill_dirty hbad) acts
      ⟨.of_init h, .of_init h, .of_init h⟩
  · refine Transition.along_of_forall (g := fun a => ∀ c i j, a ≠ .kill c i (.hit 0 j)) (fun _ hI => hI.2.2.clean)
      (fun s a s' hI ha => hstep s a s' hI (hI.2.2.noFreeKill ha)) ?_ ⟨.of_init h, .of_init h, .of_init h⟩
    rintro _ ha c i j rfl
    exact hno c i j ha
  · rw [Sys.killSlot_eq]
    refine ⟨Function.update_of_ne hk _ _, ?_⟩
    show (if t.state j = .SLEEPING then Function.update t.state j .RUNNABLE else t.state) k = t.state k
    split
    · exact Function.update_of_ne hk _ _
    · rfl

end steps

/-- The first process calls `kill(1)` and forks. -/
def killOneRun : List (Act Unit) :=
  [.sched () (.choose 0), .sched () (.load 0), .sched () (.switch 0), .thread () 0 .forkret, .kill () 0 (.call 1),
    .kill () 0 (.hit 1 0), .fork () 0 .call, .fork () 0 (.used 0), .fork () 0 (.copy 1 2 3)]

theorem slots_clean_killOne :
    Init 2 (boot Unit) ∧ Transition.Along (step 2) CleanSlots (boot Unit) killOneRun := by
  refine ⟨boot_init (by decide), (slots_clean_iff (boot_init (by decide)) killOneRun).2.1 ?_⟩
  simp [killOneRun]

/-- The first process calls `kill(0)` and forks. -/
def killZeroRun : List (Act Unit) :=
  [.sched () (.choose 0), .sched () (.load 0), .sched () (.switch 0), .thread () 0 .forkret, .kill () 0 (.call 0),
    .kill () 0 (.miss 0 0), .kill () 0 (.hit 0 1), .fork () 0 .call, .fork () 0 (.used 0), .fork () 0 (.copy 1 2 3),
    .fork () 0 (.link 1), .fork () 0 (.start 1)]

theorem killZeroRun_ends :
    ((Transition.runActs (step 2) (boot Unit) killZeroRun).map fun s => (s.kills, s.state 1, s.pid 1, s.killed 1)) =
      some ([⟨0, some (.UNUSED, 0)⟩], .RUNNABLE, 2, true) := by
  decide +kernel

/-- **A process is born killed**: `kill(0)` returned 0 for a free slot, and the child that gets the slot is
`RUNNABLE` with `p->killed` set. -/
theorem killZero_born_killed :
    Init 2 (boot Unit) ∧ ∃ s, Transition.runActs (step 2) (boot Unit) killZeroRun = some s ∧
      s.kills = [⟨0, some (.UNUSED, 0)⟩] ∧ s.state 1 = .RUNNABLE ∧ s.pid 1 = 2 ∧ s.killed 1 = true ∧ ¬ CleanSlots s := by
  obtain ⟨s, hs, heq⟩ := Option.map_eq_some_iff.1 killZeroRun_ends
  simp only [Prod.mk.injEq] at heq
  obtain ⟨hkills, hst, hpid, hkilled⟩ := heq
  refine ⟨boot_init (by decide), s, hs, hkills, hst, hpid, hkilled, fun hclean => ?_⟩
  exact (hclean.kills ⟨0, some (.UNUSED, 0)⟩ (by rw [hkills]; simp) _ _ rfl).1 rfl

end Xv6.Sched
