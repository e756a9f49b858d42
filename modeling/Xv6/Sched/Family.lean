import Xv6.Sched.Registers

/-!
# The process tree

* `Tree` — the parent of every process is live; parents are older than their children, `initproc` apart.
* `Books` — every exit is recorded once, and `wait` returns recorded exits only.
* `process_tree` — no process is an orphan, every `ZOMBIE` is without children, and each exited process is
  returned by one `wait` at most.

The link between the slots and the records are the births: `allocproc` numbers the processes.
-/

namespace Xv6.Sched

open Function

variable {κ : Type}

/-- A process that has not exited. -/
def Live (st : ProcState) : Prop := st = .SLEEPING ∨ st = .RUNNABLE ∨ st = .RUNNING

variable {st st' : ProcState} {s s' : Sys κ}

theorem Live.ne_unused (h : Live st) : st ≠ .UNUSED := by
  rcases h with rfl | rfl | rfl <;> decide

theorem Live.ne_zombie (h : Live st) : st ≠ .ZOMBIE := by
  rcases h with rfl | rfl | rfl <;> decide

/-- The parent, the parent's parent and so on. -/
def Sys.ancestor (s : Sys κ) : Nat → Nat → Option Nat
  | 0, i => some i
  | n + 1, i => (s.parent i).bind (s.ancestor n)

/-- What the call that process `i` is in says about its children. -/
def TreeAt (N : Nat) (s : Sys κ) (i : Nat) : Base → Prop
  | .closing _ _ => i ≠ initproc
  | .cwd _ => i ≠ initproc
  | .exitLock _ => i ≠ initproc
  | .reparent _ j => i ≠ initproc ∧ ∀ k, k < j → s.parent k ≠ some i
  | .exitOwn _ => i ≠ initproc ∧ ∀ k, k < N → s.parent k ≠ some i
  | .zombie => i ≠ initproc
  | .link j => s.parent j = none ∧ s.birth i < s.birth j
  | .start j => s.parent j = some i
  | _ => True

structure Tree (N : Nat) (s : Sys κ) : Prop where
  first : Live (s.state initproc) ∧ s.parent initproc = none
  live : ∀ i q, s.parent i = some q → Live (s.state q)
  orphan : ∀ i, i ≠ initproc → Live (s.state i) ∨ s.state i = .ZOMBIE → s.parent i ≠ none
  older : ∀ i q, s.parent i = some q → q = initproc ∨ s.birth q < s.birth i
  unused : ∀ i, s.state i = .UNUSED → s.parent i = none
  slots : ∀ i, N ≤ i → s.state i = .UNUSED
  calls : ∀ i, s.state i ≠ .UNUSED → TreeAt N s i (s.base i)

structure Books (s : Sys κ) : Prop where
  births : ∀ i, s.state i ≠ .UNUSED → s.birth i < s.births
  distinct : ∀ i j, s.state i ≠ .UNUSED → s.state j ≠ .UNUSED → s.birth i = s.birth j → i = j
  zombie : ∀ i, s.state i = .ZOMBIE →
    ⟨s.birth i, s.pid i, s.xstate i⟩ ∈ s.exits ∧ s.birth i ∉ s.reaped.map Exit.birth
  active : ∀ i, s.state i ≠ .UNUSED → s.state i ≠ .ZOMBIE → s.birth i ∉ s.exits.map Exit.birth
  bound : ∀ e ∈ s.exits, e.birth < s.births
  exits : (s.exits.map Exit.birth).Nodup
  reaped : (s.reaped.map Exit.birth).Nodup
  returned : s.reaped ⊆ s.exits

/-! ## Frames -/

/-- A state changes between `SLEEPING`, `RUNNABLE` and `RUNNING` only. -/
def SameLife (st st' : ProcState) : Prop := st' = st ∨ Live st ∧ Live st'

theorem SameLife.live (h : SameLife st st') : Live st' ↔ Live st := by
  rcases h with rfl | ⟨h, h'⟩
  · exact .rfl
  · exact iff_of_true h' h

theorem SameLife.unused (h : SameLife st st') : st' = .UNUSED ↔ st = .UNUSED := by
  rcases h with rfl | ⟨h, h'⟩
  · exact .rfl
  · exact iff_of_false h'.ne_unused h.ne_unused

theorem SameLife.zombie (h : SameLife st st') : st' = .ZOMBIE ↔ st = .ZOMBIE := by
  rcases h with rfl | ⟨h, h'⟩
  · exact .rfl
  · exact iff_of_false h'.ne_zombie h.ne_zombie

theorem sameLife_update {f : Nat → ProcState} {j : Nat} (hj : f j = st) (hst : Live st)
    (hst' : Live st') (k : Nat) : SameLife (f k) (update f j st' k) := by
  by_cases hk : k = j
  · subst hk
    rw [update_self, hj]
    exact Or.inr ⟨hst, hst'⟩
  · rw [update_of_ne hk]
    exact Or.inl rfl

theorem TreeAt.mono {N : Nat} {i : Nat} {b : Base} (h : TreeAt N s i b)
    (hp : i ≠ initproc → ∀ k, s'.parent k = some i → s.parent k = some i)
    (hc : ∀ m, b.child = some m → s'.parent m = s.parent m ∧ (s.birth i < s.birth m → s'.birth i < s'.birth m)) :
    TreeAt N s' i b := by
  cases b with
  | reparent st j | exitOwn st => exact ⟨h.1, fun k hk => mt (hp h.1 k) (h.2 k hk)⟩
  | link j => exact ⟨(hc j rfl).1.trans h.1, (hc j rfl).2 h.2⟩
  | start j => exact (hc j rfl).1.trans h
  | _ => exact h

/-- Births change in free slots only. -/
structure SameBirths (s s' : Sys κ) : Prop where
  birth : ∀ k, s.state k ≠ .UNUSED → s'.birth k = s.birth k
  births : s.births ≤ s'.births

theorem SameBirths.rfl (hb : s'.birth = s.birth) (hbs : s'.births = s.births) : SameBirths s s' :=
  ⟨fun k _ => by rw [hb], hbs.ge⟩

theorem Tree.frame {N : Nat} (h : Tree N s) (hchild : ChildOk s) (hp : s'.parent = s.parent)
    (hb : SameBirths s s') (hst : ∀ k, SameLife (s.state k) (s'.state k))
    (hbase : ∀ k, s.state k ≠ .UNUSED → s'.base k = s.base k ∨ (s'.base k).child = none ∧ TreeAt N s k (s'.base k)) :
    Tree N s' where
  first := by
    rw [hp, (hst initproc).live]
    exact h.first
  live i q hq := by
    rw [hp] at hq
    exact (hst q).live.2 (h.live i q hq)
  orphan i hi hst' := by
    rw [hp]
    exact h.orphan i hi (hst'.imp (hst i).live.1 (hst i).zombie.1)
  older i q hq := by
    rw [hp] at hq
    have hi : s.state i ≠ .UNUSED := fun hu => by
      rw [h.unused i hu] at hq
      cases hq
    rw [hb.birth i hi, hb.birth q (h.live i q hq).ne_unused]
    exact h.older i q hq
  unused i hi := by
    rw [hp]
    exact h.unused i ((hst i).unused.1 hi)
  slots i hi := (hst i).unused.2 (h.slots i hi)
  calls i hi := by
    have hi' : s.state i ≠ .UNUSED := mt (hst i).unused.2 hi
    have hcalls : TreeAt N s i (s'.base i) ∧ ∀ m, (s'.base i).child = some m → (s.base i).child = some m := by
      rcases hbase i hi' with heq | ⟨hnone, hat⟩
      · rw [heq]
        exact ⟨h.calls i hi', fun _ hm => hm⟩
      · refine ⟨hat, fun m hm => ?_⟩
        rw [hnone] at hm
        cases hm
    refine hcalls.1.mono (fun _ k hk => hp ▸ hk) fun m hm => ⟨by rw [hp], fun hlt => ?_⟩
    have hused := hchild.used i m (hcalls.2 m hm)
    rwa [hb.birth i hi', hb.birth m (by simp [hused])]

theorem Books.frame (h : Books s) (hb : SameBirths s s')
    (hz : ∀ k, s.state k = .ZOMBIE → s'.pid k = s.pid k ∧ s'.xstate k = s.xstate k)
    (he : s'.exits = s.exits) (hr : s'.reaped = s.reaped) (hst : ∀ k, SameLife (s.state k) (s'.state k)) : Books s' where
  births i hi := by
    have hi' := mt (hst i).unused.2 hi
    rw [hb.birth i hi']
    exact (h.births i hi').trans_le hb.births
  distinct i j hi hj := by
    have hi' := mt (hst i).unused.2 hi
    have hj' := mt (hst j).unused.2 hj
    rw [hb.birth i hi', hb.birth j hj']
    exact h.distinct i j hi' hj'
  zombie i hi := by
    have hi' := (hst i).zombie.1 hi
    rw [hb.birth i (by simp [hi']), (hz i hi').1, (hz i hi').2, he, hr]
    exact h.zombie i hi'
  active i hi hne := by
    have hi' := mt (hst i).unused.2 hi
    rw [hb.birth i hi', he]
    exact h.active i hi' (mt (hst i).zombie.2 hne)
  bound e hmem := by
    rw [he] at hmem
    exact (h.bound e hmem).trans_le hb.births
  exits := by
    rw [he]
    exact h.exits
  reaped := by
    rw [hr]
    exact h.reaped
  returned := by
    rw [hr, he]
    exact h.returned

structure Family (N : Nat) (s : Sys κ) : Prop where
  tree : Tree N s
  books : Books s

/-- The fields that `Family` reads, states and calls apart. -/
structure SameFamily (s s' : Sys κ) : Prop where
  parent : s'.parent = s.parent
  birth : s'.birth = s.birth
  births : s'.births = s.births
  pid : s'.pid = s.pid
  xstate : s'.xstate = s.xstate
  exits : s'.exits = s.exits
  reaped : s'.reaped = s.reaped

theorem Family.frame {N : Nat} (h : Family N s) (hs : SysInv s) (hf : SameFamily s s')
    (hst : ∀ k, SameLife (s.state k) (s'.state k))
    (hbase : ∀ k, s'.base k = s.base k ∨ (s'.base k).child = none ∧ TreeAt N s k (s'.base k)) : Family N s' where
  tree := h.tree.frame hs.child hf.parent (.rfl hf.birth hf.births) hst fun k _ => hbase k
  books := h.books.frame (.rfl hf.birth hf.births) (fun k _ => by rw [hf.pid, hf.xstate]; exact ⟨rfl, rfl⟩) hf.exits
    hf.reaped hst

/-! ## Steps -/

section steps

variable [DecidableEq κ] {N : Nat} {s : Sys κ} {c : κ} {i : Nat}

omit [DecidableEq κ] in
theorem base_update {b : Base} (hb : b.child = none) (hat : TreeAt N s i b) (k : Nat) :
    update s.base i b k = s.base k ∨
      (update s.base i b k).child = none ∧ TreeAt N s k (update s.base i b k) := by
  by_cases hk : k = i
  · subst hk
    rw [update_self]
    exact Or.inr ⟨hb, hat⟩
  · rw [update_of_ne hk]
    exact Or.inl rfl

theorem family_sched {a : SchedAct} (hs : SysInv s) (h : Family N s) (he : a.enabled N s c) : Family N (a.next N s c) := by
  cases a with
  | choose i =>
    exact h.frame hs ⟨rfl, rfl, rfl, rfl, rfl, rfl, rfl⟩ (sameLife_update he.2.2.2.2 (Or.inr (Or.inl rfl)) (Or.inr (Or.inr rfl))) fun _ => Or.inl rfl
  | skip i | load i | switch i | kvminithart i | leave i =>
    exact h.frame hs ⟨rfl, rfl, rfl, rfl, rfl, rfl, rfl⟩ (fun _ => Or.inl rfl) fun _ => Or.inl rfl

theorem family_irq {a : IrqAct} (hs : SysInv s) (h : Family N s) (he : a.enabled N s c) : Family N (a.next s c) := by
  cases a with
  | rouse ch j =>
    exact h.frame hs ⟨rfl, rfl, rfl, rfl, rfl, rfl, rfl⟩ (sameLife_update he.2.2.2.2.1 (Or.inl rfl) (Or.inr (Or.inl rfl))) fun _ => Or.inl rfl
  | _ => exact h.frame hs ⟨rfl, rfl, rfl, rfl, rfl, rfl, rfl⟩ (fun _ => Or.inl rfl) fun _ => Or.inl rfl

theorem family_thread {a : ThreadAct} (hs : SysInv s) (h : Family N s) (he : a.enabled N s c i) :
    Family N (a.next s c i) := by
  cases a with
  | trap | usertrapret => exact h.frame hs ⟨rfl, rfl, rfl, rfl, rfl, rfl, rfl⟩ (fun _ => Or.inl rfl) (base_update rfl trivial)
  | rouse ch j =>
    exact h.frame hs ⟨rfl, rfl, rfl, rfl, rfl, rfl, rfl⟩ (sameLife_update he.2.2.2.2.1 (Or.inl rfl) (Or.inr (Or.inl rfl))) fun _ => Or.inl rfl
  | doze ch lk =>
    have hst : s.state i = .RUNNING := (hs.core.at_runOk he.at).1
    exact h.frame hs ⟨rfl, rfl, rfl, rfl, rfl, rfl, rfl⟩ (sameLife_update hst (Or.inr (Or.inr rfl)) (Or.inl rfl)) fun _ => Or.inl rfl
  | yield t =>
    have hst : s.state i = .RUNNING := hs.core.running_of_preemptible he.1.at he.2.1
    exact h.frame hs ⟨rfl, rfl, rfl, rfl, rfl, rfl, rfl⟩ (sameLife_update hst (Or.inr (Or.inr rfl)) (Or.inr (Or.inl rfl))) fun _ => Or.inl rfl
  | _ => exact h.frame hs ⟨rfl, rfl, rfl, rfl, rfl, rfl, rfl⟩ (fun _ => Or.inl rfl) fun _ => Or.inl rfl

omit [DecidableEq κ] in
theorem family_kill {a : KillAct} (hs : SysInv s) (h : Family N s) (he : a.enabled N s c i) : Family N (a.next s i) := by
  cases a with
  | call pid | miss pid j | fail pid => exact h.frame hs ⟨rfl, rfl, rfl, rfl, rfl, rfl, rfl⟩ (fun _ => Or.inl rfl) (base_update rfl trivial)
  | hit pid j =>
    rw [KillAct.next, Sys.killSlot_eq]
    refine h.frame hs ⟨rfl, rfl, rfl, rfl, rfl, rfl, rfl⟩ (fun k => ?_) (base_update rfl trivial)
    show SameLife (s.state k) ((if s.state j = .SLEEPING then update s.state j .RUNNABLE else s.state) k)
    split
    · rename_i hst
      exact sameLife_update hst (Or.inl rfl) (Or.inr (Or.inl rfl)) k
    · exact Or.inl rfl

omit [DecidableEq κ] in
theorem Family.at_call {b : Base} (h : Family N s) (hs : SysInv s) (hr : s.Runs c i b .run) :
    s.state i = .RUNNING ∧ TreeAt N s i b := by
  have hst : s.state i = .RUNNING := (hs.core.at_runOk hr.at).1
  refine ⟨hst, ?_⟩
  rw [← hr.2.2.1]
  exact h.tree.calls i (by simp [hst])

omit [DecidableEq κ] in
variable {j : Nat}

/-- Slot `j` gets the parent `q`. -/
theorem Tree.adopt {s' : Sys κ} {q : Nat} (h : Tree N s) (hj : s.state j ≠ .UNUSED) (hj0 : j ≠ initproc)
    (hq : Live (s.state q)) (hold : q = initproc ∨ s.birth q < s.birth j)
    (hp : s'.parent = update s.parent j (some q)) (hb : s'.birth = s.birth) (hst : s'.state = s.state)
    (hcalls : ∀ k, s.state k ≠ .UNUSED → TreeAt N s' k (s'.base k)) : Tree N s' where
  first := by
    rw [hp, hst, update_of_ne hj0.symm]
    exact h.first
  live k r hr := by
    rw [hst]
    rw [hp] at hr
    by_cases hk : k = j
    · rw [hk, update_self] at hr
      cases hr
      exact hq
    · rw [update_of_ne hk] at hr
      exact h.live k r hr
  orphan k hk hst' := by
    rw [hp]
    rw [hst] at hst'
    by_cases hkj : k = j
    · simp [hkj]
    · rw [update_of_ne hkj]
      exact h.orphan k hk hst'
  older k r hr := by
    rw [hb]
    rw [hp] at hr
    by_cases hk : k = j
    · rw [hk, update_self] at hr
      cases hr
      rw [hk]
      exact hold
    · rw [update_of_ne hk] at hr
      exact h.older k r hr
  unused k hk := by
    rw [hst] at hk
    have hkj : k ≠ j := by
      rintro rfl
      exact hj hk
    rw [hp, update_of_ne hkj]
    exact h.unused k hk
  slots k hk := by
    rw [hst]
    exact h.slots k hk
  calls k hk := hcalls k (hst ▸ hk)

omit [DecidableEq κ] in
theorem Tree.lt_of_ne_unused (h : Tree N s) (hj : s.state j ≠ .UNUSED) : j < N :=
  not_le.1 fun hle => hj (h.slots j hle)

theorem tree_give {st : Int} (hs : SysInv s) (h : Family N s) (he : (ExitAct.give st j).enabled N s c i) :
    Tree N ((ExitAct.give st j).next s c i) := by
  obtain ⟨hr, -, hp⟩ := he
  obtain ⟨-, hi, hbelow⟩ := h.at_call hs hr
  have hj : s.state j ≠ .UNUSED := fun hu => by
    rw [h.tree.unused j hu] at hp
    cases hp
  have hj0 : j ≠ initproc := by
    rintro rfl
    rw [h.tree.first.2] at hp
    cases hp
  refine h.tree.adopt hj hj0 h.tree.first.1 (Or.inl rfl) rfl rfl rfl fun k hk => ?_
  by_cases hki : k = i
  · subst hki
    show TreeAt N _ k (update s.base k (.reparent st (j + 1)) k)
    rw [update_self]
    refine ⟨hi, fun l hl => ?_⟩
    show update s.parent j (some initproc) l ≠ some k
    by_cases hlj : l = j
    · rw [hlj, update_self]
      simpa using hi.symm
    · rw [update_of_ne hlj]
      exact hbelow l (by omega)
  · show TreeAt N _ k (update s.base i (.reparent st (j + 1)) k)
    rw [update_of_ne hki]
    have hat := h.tree.calls k hk
    have hne : ∀ m, (s.base k).child = some m → m ≠ j := by
      rintro m hm rfl
      cases hb : s.base k with
      | link j' =>
        rw [hb] at hat hm
        cases hm
        rw [hat.1] at hp
        cases hp
      | start j' =>
        rw [hb] at hat hm
        cases hm
        rw [show s.parent _ = some k from hat] at hp
        exact hki (Option.some.inj hp)
      | _ =>
        rw [hb] at hm
        cases hm
    refine hat.mono (fun hk0 l hl => ?_) fun m hm => ⟨update_of_ne (hne m hm) _ _, id⟩
    have hl' : update s.parent j (some initproc) l = some k := hl
    by_cases hlj : l = j
    · rw [hlj, update_self] at hl'
      exact absurd (Option.some.inj hl').symm hk0
    · rwa [update_of_ne hlj] at hl'

theorem tree_zombie {st : Int} (hs : SysInv s) (h : Family N s) (he : (ExitAct.zombie st).enabled N s c i) :
    Tree N ((ExitAct.zombie st).next s c i) := by
  obtain ⟨hr, -, -⟩ := he
  obtain ⟨hst, hi, hnone⟩ := h.at_call hs hr
  have hstate : ((ExitAct.zombie st).next s c i).state = update s.state i .ZOMBIE := rfl
  have hbase : ((ExitAct.zombie st).next s c i).base = update s.base i .zombie := rfl
  have hnot : ∀ k, s.parent k ≠ some i := by
    intro k hk
    by_cases hkN : k < N
    · exact hnone k hkN hk
    · rw [h.tree.unused k (h.tree.slots k (not_lt.1 hkN))] at hk
      cases hk
  refine ⟨?_, fun k q hq => ?_, fun k hk hst' => ?_, h.tree.older, fun k hk => ?_, fun k hk => ?_, fun k hk => ?_⟩
  · rw [hstate, update_of_ne hi.symm]
    exact h.tree.first
  · rw [hstate, update_of_ne]
    · exact h.tree.live k q hq
    · rintro rfl
      exact hnot k hq
  · by_cases hki : k = i
    · rw [hki]
      exact h.tree.orphan i hi (Or.inl (Or.inr (Or.inr hst)))
    · rw [hstate, update_of_ne hki] at hst'
      exact h.tree.orphan k hk hst'
  · have hki : k ≠ i := by
      rintro rfl
      rw [hstate, update_self] at hk
      cases hk
    rw [hstate, update_of_ne hki] at hk
    exact h.tree.unused k hk
  · have hiN := h.tree.lt_of_ne_unused (j := i) (by simp [hst])
    rw [hstate, update_of_ne (by omega)]
    exact h.tree.slots k hk
  · by_cases hki : k = i
    · rw [hki, hbase, update_self]
      exact hi
    · rw [hstate, update_of_ne hki] at hk
      rw [hbase, update_of_ne hki]
      exact (h.tree.calls k hk).mono (fun _ _ hl => hl) fun _ _ => ⟨rfl, id⟩

theorem books_zombie {st : Int} (hs : SysInv s) (h : Family N s) (he : (ExitAct.zombie st).enabled N s c i) :
    Books ((ExitAct.zombie st).next s c i) := by
  obtain ⟨hr, -, -⟩ := he
  obtain ⟨hst, -⟩ := h.at_call hs hr
  have hb := h.books
  have hstate : ((ExitAct.zombie st).next s c i).state = update s.state i .ZOMBIE := rfl
  have hxstate : ((ExitAct.zombie st).next s c i).xstate = update s.xstate i st := rfl
  have hexits : ((ExitAct.zombie st).next s c i).exits = s.exits ++ [⟨s.birth i, s.pid i, st⟩] := rfl
  have hne : s.state i ≠ .UNUSED := by simp [hst]
  have hnew := hb.active i hne (by simp [hst])
  have hused : ∀ k, update s.state i .ZOMBIE k ≠ .UNUSED → s.state k ≠ .UNUSED :=
    ne_unused_update hst (by decide)
  refine ⟨fun k hk => hb.births k (hused k hk), fun k l hk hl => hb.distinct k l (hused k hk) (hused l hl),
    fun k hk => ?_, fun k hk hz => ?_, fun e hmem => ?_, ?_, hb.reaped, fun e hmem => ?_⟩
  · rw [hexits, hxstate]
    by_cases hki : k = i
    · rw [hki, update_self]
      refine ⟨List.mem_append_right _ (List.mem_singleton.2 rfl), fun hmem => hnew ?_⟩
      exact List.map_subset _ hb.returned hmem
    · rw [hstate, update_of_ne hki] at hk
      rw [update_of_ne hki]
      exact ⟨List.mem_append_left _ (hb.zombie k hk).1, (hb.zombie k hk).2⟩
  · have hki : k ≠ i := by
      rintro rfl
      exact hz (update_self ..)
    have hk' := hused k hk
    rw [hstate, update_of_ne hki] at hz
    rw [hexits, List.map_append, List.mem_append, not_or]
    refine ⟨hb.active k hk' hz, fun hmem => hki (hb.distinct k i hk' hne ?_)⟩
    exact List.mem_singleton.1 hmem
  · rw [hexits, List.mem_append, List.mem_singleton] at hmem
    rcases hmem with hmem | rfl
    · exact hb.bound e hmem
    · exact hb.births i hne
  · rw [hexits, List.map_append]
    refine List.nodup_append'.2 ⟨hb.exits, List.nodup_singleton _, ?_⟩
    exact List.disjoint_singleton.2 hnew
  · rw [hexits]
    exact List.mem_append_left _ (hb.returned hmem)

theorem family_exit {a : ExitAct} (hs : SysInv s) (h : Family N s) (he : a.enabled N s c i) : Family N (a.next s c i) := by
  cases a with
  | call st => exact h.frame hs ⟨rfl, rfl, rfl, rfl, rfl, rfl, rfl⟩ (fun _ => Or.inl rfl) (base_update rfl he.2)
  | close st fd => exact h.frame hs ⟨rfl, rfl, rfl, rfl, rfl, rfl, rfl⟩ (fun _ => Or.inl rfl) (base_update rfl (h.at_call hs he.1).2)
  | closed st | iput st | given st =>
    exact h.frame hs ⟨rfl, rfl, rfl, rfl, rfl, rfl, rfl⟩ (fun _ => Or.inl rfl) (base_update rfl (h.at_call hs he).2)
  | lock st =>
    exact h.frame hs ⟨rfl, rfl, rfl, rfl, rfl, rfl, rfl⟩ (fun _ => Or.inl rfl)
      (base_update rfl ⟨(h.at_call hs he.1).2, fun k hk => absurd hk (Nat.not_lt_zero k)⟩)
  | keep st j =>
    obtain ⟨-, hi, hbelow⟩ := h.at_call hs he.1
    refine h.frame hs ⟨rfl, rfl, rfl, rfl, rfl, rfl, rfl⟩ (fun _ => Or.inl rfl) (base_update rfl ⟨hi, fun k hk => ?_⟩)
    rcases Nat.lt_succ_iff_lt_or_eq.1 hk with hlt | rfl
    · exact hbelow k hlt
    · exact he.2.2
  | give st j => exact ⟨tree_give hs h he, h.books.frame (.rfl rfl rfl) (fun _ _ => ⟨rfl, rfl⟩) rfl rfl fun _ => Or.inl rfl⟩
  | zombie st => exact ⟨tree_zombie hs h he, books_zombie hs h he⟩

omit [DecidableEq κ] in
theorem left_of_free {f : Nat → ProcState} {l : Nat} (hl : update f j .UNUSED l ≠ .UNUSED) :
    l ≠ j ∧ f l ≠ .UNUSED := by
  by_cases hlj : l = j
  · rw [hlj, update_self] at hl
    exact absurd rfl hl
  · rw [update_of_ne hlj] at hl
    exact ⟨hlj, hl⟩

theorem tree_reap {k : Bool} (hs : SysInv s) (h : Family N s) (he : (WaitAct.reap j k).enabled N s c i) :
    Tree N ((WaitAct.reap j k).next s c i) := by
  obtain ⟨hr, hj, -, -, hst, -⟩ := he
  have hstate : ((WaitAct.reap j k).next s c i).state = update s.state j .UNUSED := rfl
  have hparent : ((WaitAct.reap j k).next s c i).parent = update s.parent j none := rfl
  have hbase : ((WaitAct.reap j k).next s c i).base = update s.base i .kernel := rfl
  have hlive : ∀ q, Live (s.state q) → q ≠ j := by
    rintro q hq rfl
    exact hq.ne_zombie hst
  -- the parents that are left are old ones
  have hold : ∀ l q, update s.parent j none l = some q → l ≠ j ∧ s.parent l = some q := by
    intro l q hq
    by_cases hlj : l = j
    · rw [hlj, update_self] at hq
      cases hq
    · rw [update_of_ne hlj] at hq
      exact ⟨hlj, hq⟩
  refine ⟨?_, fun l q hq => ?_, fun l hl hst' => ?_, fun l q hq => h.tree.older l q (hold l q hq).2, fun l hl => ?_,
    fun l hl => ?_, fun l hl => ?_⟩
  · have h0 := hlive _ h.tree.first.1
    rw [hstate, hparent, update_of_ne h0, update_of_ne h0]
    exact h.tree.first
  · have hq' := h.tree.live l q (hold l q hq).2
    rw [hstate, update_of_ne (hlive q hq')]
    exact hq'
  · rw [hstate] at hst'
    obtain ⟨hlj, -⟩ := left_of_free (f := s.state) (by rcases hst' with hst' | hst' <;> [exact hst'.ne_unused; simp [hst']])
    rw [update_of_ne hlj] at hst'
    rw [hparent, update_of_ne hlj]
    exact h.tree.orphan l hl hst'
  · rw [hparent]
    by_cases hlj : l = j
    · rw [hlj, update_self]
    · rw [hstate, update_of_ne hlj] at hl
      rw [update_of_ne hlj]
      exact h.tree.unused l hl
  · rw [hstate, update_of_ne (by omega)]
    exact h.tree.slots l hl
  · obtain ⟨hlj, hl'⟩ := left_of_free hl
    by_cases hli : l = i
    · rw [hli, hbase, update_self]
      trivial
    · rw [hbase, update_of_ne hli]
      refine (h.tree.calls l hl').mono (fun _ m hm => (hold m l hm).2) fun m hm => ⟨?_, id⟩
      rw [hparent, update_of_ne]
      rintro rfl
      rw [hs.child.used l m hm] at hst
      cases hst

theorem books_reap {k : Bool} (h : Family N s) (he : (WaitAct.reap j k).enabled N s c i) :
    Books ((WaitAct.reap j k).next s c i) := by
  obtain ⟨-, -, -, -, hst, -⟩ := he
  have hb := h.books
  have hstate : ((WaitAct.reap j k).next s c i).state = update s.state j .UNUSED := rfl
  have hpid : ((WaitAct.reap j k).next s c i).pid = update s.pid j 0 := rfl
  have hxstate : ((WaitAct.reap j k).next s c i).xstate = update s.xstate j 0 := rfl
  have hreaped : ((WaitAct.reap j k).next s c i).reaped = s.reaped ++ [⟨s.birth j, s.pid j, s.xstate j⟩] := rfl
  obtain ⟨hexit, hnew⟩ := hb.zombie j hst
  refine ⟨fun l hl => hb.births l (left_of_free hl).2, fun l m hl hm => hb.distinct l m (left_of_free hl).2 (left_of_free hm).2,
    fun l hl => ?_, fun l hl hz => ?_, hb.bound, hb.exits, ?_, fun e hmem => ?_⟩
  · obtain ⟨hlj, hl'⟩ := left_of_free (f := s.state) (by rw [← hstate, hl]; simp)
    rw [hstate, update_of_ne hlj] at hl
    rw [hpid, hxstate, hreaped, update_of_ne hlj, update_of_ne hlj, List.map_append, List.mem_append,
      not_or]
    refine ⟨(hb.zombie l hl).1, (hb.zombie l hl).2, fun hmem => hlj (hb.distinct l j hl' (by simp [hst]) ?_)⟩
    exact List.mem_singleton.1 hmem
  · obtain ⟨hlj, hl'⟩ := left_of_free hl
    rw [hstate, update_of_ne hlj] at hz
    exact hb.active l hl' hz
  · rw [hreaped, List.map_append]
    exact List.nodup_append'.2 ⟨hb.reaped, List.nodup_singleton _, List.disjoint_singleton.2 hnew⟩
  · rw [hreaped, List.mem_append, List.mem_singleton] at hmem
    rcases hmem with hmem | rfl
    · exact hb.returned hmem
    · exact hexit

theorem family_wait {a : WaitAct} (hs : SysInv s) (h : Family N s) (he : a.enabled N s c i) : Family N (a.next s c i) := by
  cases a with
  | reap j k => exact ⟨tree_reap hs h he, books_reap h he⟩
  | _ => exact h.frame hs ⟨rfl, rfl, rfl, rfl, rfl, rfl, rfl⟩ (fun _ => Or.inl rfl) (base_update rfl trivial)

omit [DecidableEq κ] in
/-- A call of `fork` that gives slot `j` back. -/
theorem family_unused {s' : Sys κ} (hs : SysInv s) (h : Family N s) (hst : s.state j = .UNUSED)
    (hb : SameBirths s s') (hp : s'.parent = update s.parent j none)
    (hpid : ∀ k, k ≠ j → s'.pid k = s.pid k) (hx : s'.xstate = update s.xstate j 0)
    (he : s'.exits = s.exits) (hr : s'.reaped = s.reaped) (hstate : s'.state = update s.state j .UNUSED)
    (hbase : ∀ k, k ≠ j → s'.base k = update s.base i .kernel k) : Family N s' := by
  have hlife : ∀ k, SameLife (s.state k) (s'.state k) := by
    intro k
    rw [hstate, update_eq_self_iff.2 hst.symm]
    exact Or.inl rfl
  refine ⟨h.tree.frame hs.child ?_ hb hlife fun k hk => ?_, h.books.frame hb (fun k hk => ?_) he hr hlife⟩
  · rw [hp, update_eq_self_iff.2 (h.tree.unused j hst).symm]
  · rw [hbase k (by rintro rfl; exact hk hst)]
    exact base_update (N := N) (b := .kernel) rfl trivial k
  · have hkj : k ≠ j := by
      rintro rfl
      rw [hst] at hk
      cases hk
    rw [hpid k hkj, hx, update_of_ne hkj]
    exact ⟨rfl, rfl⟩

theorem tree_copy {a b : Nat} (hs : SysInv s) (h : Family N s) (he : (ForkAct.copy j a b).enabled N s c i) :
    Tree N ((ForkAct.copy j a b).next s c i) := by
  obtain ⟨hr, hj, -, hst, -⟩ := he
  obtain ⟨hsti, -⟩ := h.at_call hs hr
  have hstate : ((ForkAct.copy j a b).next s c i).state = update s.state j .USED := rfl
  have hbirth : ((ForkAct.copy j a b).next s c i).birth = update s.birth j s.births := rfl
  have hbase : ((ForkAct.copy j a b).next s c i).base = update (update s.base j .kernel) i (.link j) := rfl
  have hne : ∀ q, s.state q ≠ .UNUSED → q ≠ j := by
    rintro q hq rfl
    exact hq hst
  have hij : i ≠ j := hne i (by simp [hsti])
  have hpj := h.tree.unused j hst
  refine ⟨?_, fun k q hq => ?_, fun k hk hst' => ?_, fun k q hq => ?_, fun k hk => ?_, fun k hk => ?_, fun k hk => ?_⟩
  · rw [hstate, update_of_ne (hne _ h.tree.first.1.ne_unused)]
    exact h.tree.first
  · have hlive := h.tree.live k q hq
    rw [hstate, update_of_ne (hne q hlive.ne_unused)]
    exact hlive
  · have hkj : k ≠ j := by
      rintro rfl
      rw [hstate, update_self] at hst'
      rcases hst' with (hst' | hst' | hst') | hst' <;> cases hst'
    rw [hstate, update_of_ne hkj] at hst'
    exact h.tree.orphan k hk hst'
  · have hkj : k ≠ j := by
      rintro rfl
      exact absurd (hpj.symm.trans hq) (by simp)
    rw [hbirth, update_of_ne hkj, update_of_ne (hne q (h.tree.live k q hq).ne_unused)]
    exact h.tree.older k q hq
  · by_cases hkj : k = j
    · rw [hkj]
      exact hpj
    · rw [hstate, update_of_ne hkj] at hk
      exact h.tree.unused k hk
  · rw [hstate, update_of_ne (by omega)]
    exact h.tree.slots k hk
  · by_cases hki : k = i
    · rw [hki, hbase, update_self]
      refine ⟨hpj, ?_⟩
      rw [hbirth, update_of_ne hij, update_self]
      exact h.books.births i (by simp [hsti])
    · rw [hbase, update_of_ne hki]
      by_cases hkj : k = j
      · rw [hkj, update_self]
        trivial
      · rw [hstate, update_of_ne hkj] at hk
        rw [update_of_ne hkj]
        refine (h.tree.calls k hk).mono (fun _ _ hl => hl) fun m hm => ⟨rfl, fun hlt => ?_⟩
        have hmj := hne m (by rw [hs.child.used k m hm]; decide)
        rwa [hbirth, update_of_ne hkj, update_of_ne hmj]

theorem books_copy {a b : Nat} (h : Family N s) (he : (ForkAct.copy j a b).enabled N s c i) :
    Books ((ForkAct.copy j a b).next s c i) := by
  obtain ⟨-, -, -, hst, -⟩ := he
  have hb := h.books
  have hstate : ((ForkAct.copy j a b).next s c i).state = update s.state j .USED := rfl
  have hbirth : ((ForkAct.copy j a b).next s c i).birth = update s.birth j s.births := rfl
  have hpid : ((ForkAct.copy j a b).next s c i).pid = update s.pid j s.nextpid := rfl
  have hleft : ∀ k, k ≠ j → update s.state j .USED k ≠ .UNUSED → s.state k ≠ .UNUSED := by
    intro k hkj hk
    rwa [update_of_ne hkj] at hk
  -- the new birth is larger than all others
  have hlt : ∀ k, k ≠ j → update s.state j .USED k ≠ .UNUSED →
      update s.birth j s.births k < s.births := by
    intro k hkj hk
    rw [update_of_ne hkj]
    exact hb.births k (hleft k hkj hk)
  refine ⟨fun k hk => ?_, fun k l hk hl heq => ?_, fun k hk => ?_, fun k hk hz => ?_,
    fun e hmem => Nat.lt_succ_of_lt (hb.bound e hmem), hb.exits, hb.reaped, hb.returned⟩
  · show _ < s.births + 1
    by_cases hkj : k = j
    · rw [hkj, hbirth, update_self]
      exact Nat.lt_succ_self _
    · exact Nat.lt_succ_of_lt (hlt k hkj hk)
  · by_cases hkj : k = j <;> by_cases hlj : l = j
    · rw [hkj, hlj]
    · have := hlt l hlj hl
      rw [hkj, hbirth, update_self] at heq
      omega
    · have := hlt k hkj hk
      rw [hlj, hbirth, update_self] at heq
      omega
    · rw [hbirth, update_of_ne hkj, update_of_ne hlj] at heq
      exact hb.distinct k l (hleft k hkj hk) (hleft l hlj hl) heq
  · have hkj : k ≠ j := by
      rintro rfl
      rw [hstate, update_self] at hk
      cases hk
    rw [hstate, update_of_ne hkj] at hk
    rw [hbirth, hpid, update_of_ne hkj, update_of_ne hkj]
    exact hb.zombie k hk
  · rw [hbirth]
    by_cases hkj : k = j
    · rw [hkj, update_self]
      intro hmem
      obtain ⟨e, hmem', heq⟩ := List.mem_map.1 hmem
      have := hb.bound e hmem'
      omega
    · rw [hstate, update_of_ne hkj] at hz
      rw [update_of_ne hkj]
      exact hb.active k (hleft k hkj hk) hz

theorem tree_link (hs : SysInv s) (h : Family N s) (he : (ForkAct.link j).enabled N s c i) :
    Tree N ((ForkAct.link j).next s c i) := by
  obtain ⟨hr, -⟩ := he
  obtain ⟨hsti, -, hyoung⟩ := h.at_call hs hr
  have hchild : (s.base i).child = some j := by
    rw [hr.2.2.1]
    rfl
  have hused := hs.child.used i j hchild
  have hbase : ((ForkAct.link j).next s c i).base = update s.base i (.start j) := rfl
  have hparent : ((ForkAct.link j).next s c i).parent = update s.parent j (some i) := rfl
  refine h.tree.adopt (by simp [hused]) ?_ (Or.inr (Or.inr hsti)) (Or.inr hyoung) rfl rfl rfl fun k hk => ?_
  · rintro rfl
    rcases h.tree.first.1 with hst | hst | hst <;> rw [hst] at hused <;> cases hused
  · by_cases hki : k = i
    · rw [hki, hbase, update_self]
      exact update_self ..
    · rw [hbase, update_of_ne hki]
      refine (h.tree.calls k hk).mono (fun _ l hl => ?_) fun m hm => ⟨?_, id⟩
      · rw [hparent] at hl
        by_cases hlj : l = j
        · rw [hlj, update_self] at hl
          exact absurd (Option.some.inj hl).symm hki
        · rwa [update_of_ne hlj] at hl
      · rw [hparent, update_of_ne]
        rintro rfl
        exact hki (hs.child.uniq k i m hm hchild)

theorem family_start (hs : SysInv s) (h : Family N s) (he : (ForkAct.start j).enabled N s c i) :
    Family N ((ForkAct.start j).next s c i) := by
  obtain ⟨hr, -⟩ := he
  obtain ⟨hsti, hpj⟩ := h.at_call hs hr
  have hused := hs.child.used i j (by rw [hr.2.2.1]; rfl)
  have hstate : ((ForkAct.start j).next s c i).state = update s.state j .RUNNABLE := rfl
  have hbase : ((ForkAct.start j).next s c i).base = update s.base i .kernel := rfl
  have hold : ∀ k, update s.state j .RUNNABLE k ≠ .UNUSED → s.state k ≠ .UNUSED :=
    ne_unused_update hused (by decide)
  have hlive : ∀ q, Live (s.state q) → Live (update s.state j .RUNNABLE q) := by
    intro q hq
    by_cases hqj : q = j
    · rw [hqj, update_self]
      exact Or.inr (Or.inl rfl)
    · rwa [update_of_ne hqj]
  have hb := h.books
  refine ⟨⟨⟨hlive _ h.tree.first.1, h.tree.first.2⟩, fun k q hq => hlive q (h.tree.live k q hq), fun k hk hst' => ?_,
    h.tree.older, fun k hk => ?_, fun k hk => ?_, fun k hk => ?_⟩,
    ⟨fun k hk => hb.births k (hold k hk), fun k l hk hl => hb.distinct k l (hold k hk) (hold l hl), fun k hk => ?_,
      fun k hk hz => ?_, hb.bound, hb.exits, hb.reaped, hb.returned⟩⟩
  · by_cases hkj : k = j
    · rw [hkj]
      show s.parent j ≠ none
      rw [show s.parent j = some i from hpj]
      simp
    · rw [hstate, update_of_ne hkj] at hst'
      exact h.tree.orphan k hk hst'
  · by_cases hkj : k = j
    · rw [hkj, hstate, update_self] at hk
      cases hk
    · rw [hstate, update_of_ne hkj] at hk
      exact h.tree.unused k hk
  · have hjN := h.tree.lt_of_ne_unused (j := j) (by simp [hused])
    rw [hstate, update_of_ne (by omega)]
    exact h.tree.slots k hk
  · by_cases hki : k = i
    · rw [hki, hbase, update_self]
      trivial
    · rw [hbase, update_of_ne hki]
      exact (h.tree.calls k (hold k hk)).mono (fun _ _ hl => hl) fun _ _ => ⟨rfl, id⟩
  · have hkj : k ≠ j := by
      rintro rfl
      rw [hstate, update_self] at hk
      cases hk
    rw [hstate, update_of_ne hkj] at hk
    exact hb.zombie k hk
  · refine hb.active k (hold k hk) ?_
    by_cases hkj : k = j
    · rw [hkj, hused]
      decide
    · rwa [hstate, update_of_ne hkj] at hz

theorem family_fork {a : ForkAct} (hs : SysInv s) (h : Family N s) (he : a.enabled N s c i) : Family N (a.next s c i) := by
  cases a with
  | call | used j | full => exact h.frame hs ⟨rfl, rfl, rfl, rfl, rfl, rfl, rfl⟩ (fun _ => Or.inl rfl) (base_update rfl trivial)
  | fail j | leak j =>
    exact family_unused hs h he.2.2.2 (.rfl rfl rfl) rfl (fun k hk => update_of_ne hk _ _) rfl rfl rfl rfl
      fun _ _ => rfl
  | nomem j a b =>
    obtain ⟨-, -, -, hst, -⟩ := he
    refine family_unused (i := i) hs h hst ⟨fun k hk => update_of_ne (by rintro rfl; exact hk hst) _ _, ?_⟩ rfl
      (fun k hk => ?_) rfl rfl rfl (update_idem ..) fun k hk => ?_
    · exact Nat.le_succ _
    · show update (update s.pid j s.nextpid) j 0 k = _
      rw [update_of_ne hk, update_of_ne hk]
    · show update (update s.base j .kernel) i .kernel k = _
      by_cases hki : k = i
      · rw [hki, update_self, update_self]
      · rw [update_of_ne hki, update_of_ne hki, update_of_ne hk]
  | copy j a b => exact ⟨tree_copy hs h he, books_copy h he⟩
  | link j => exact ⟨tree_link hs h he, h.books.frame (.rfl rfl rfl) (fun _ _ => ⟨rfl, rfl⟩) rfl rfl fun _ => Or.inl rfl⟩
  | start j => exact family_start hs h he

/-- **One step keeps the tree and the records.** -/
theorem Family.step {a : Act κ} (hs : SysInv s) (h : Family N s) (he : a.enabled N s) : Family N (a.next N s) := by
  cases a with
  | sched c a => exact family_sched hs h he
  | irq c a => exact family_irq hs h he
  | thread c i a => exact family_thread hs h he
  | kill c i a => exact family_kill hs h he
  | fork c i a => exact family_fork hs h he
  | exit c i a => exact family_exit hs h he
  | wait c i a => exact family_wait hs h he

omit [DecidableEq κ] in
theorem Family.of_init (h : Init N s) : Family N s := by
  have hparent : ∀ i, s.parent i = none := fun i => (h.clean i).2.2.2
  have hinit : ∀ i, s.state i ≠ .UNUSED → i = initproc := fun i hi => by
    by_contra hne
    exact hi (h.unused i hne).1
  obtain ⟨hbirth, hexits, hreaped, -⟩ := h.records
  refine ⟨⟨⟨Or.inr (Or.inl h.first.1), hparent _⟩, fun i q hq => ?_, fun i hi hst => ?_, fun i q hq => ?_,
    fun i _ => hparent i, fun i hi => (h.unused i ?_).1, fun i _ => ?_⟩, ⟨fun i hi => ?_, fun i j hi hj _ => ?_,
    fun i hi => ?_, fun i _ _ => ?_, fun e he => ?_, ?_, ?_, ?_⟩⟩
  · rw [hparent i] at hq
    cases hq
  · refine absurd (hinit i ?_) hi
    rcases hst with hst | hst
    · exact hst.ne_unused
    · simp [hst]
  · rw [hparent i] at hq
    cases hq
  · have hpos := h.slots
    rw [initproc]
    omega
  · rw [(h.at_rest i).2.2]
    trivial
  · rw [hinit i hi]
    exact hbirth
  · rw [hinit i hi, hinit j hj]
  · rcases (h.at_rest i).1 with hst | hst <;> rw [hst] at hi <;> cases hi
  · simp [hexits]
  · simp [hexits] at he
  · simp [hexits]
  · simp [hreaped]
  · simp [hreaped]

theorem family_of_reach (h : Reachable N s) : Family N s := by
  refine (h.invariant (I := fun s => SysInv s ∧ Family N s) (fun s hi => ⟨.of_init hi, .of_init hi⟩) ?_).2
  intro s a s' hI _ hs
  obtain ⟨he, rfl⟩ := step_eq_some.1 hs
  exact ⟨hI.1.step he, hI.2.step hI.1 he⟩

omit [DecidableEq κ] in
/-- The way up ends, because parents are older. -/
theorem Tree.ends_at_initproc (h : Tree N s) :
    ∀ b i, s.birth i < b → Live (s.state i) ∨ s.state i = .ZOMBIE → ∃ n, s.ancestor n i = some initproc := by
  intro b
  induction b with
  | zero => exact fun i hi => absurd hi (Nat.not_lt_zero _)
  | succ b ih =>
    intro i hi hst
    by_cases hi0 : i = initproc
    · exact ⟨0, by rw [Sys.ancestor, hi0]⟩
    · obtain ⟨q, hq⟩ := Option.ne_none_iff_exists'.1 (h.orphan i hi0 hst)
      rcases h.older i q hq with rfl | hlt
      · exact ⟨1, by rw [Sys.ancestor, hq]; rfl⟩
      · obtain ⟨n, hn⟩ := ih q (by omega) (Or.inl (h.live i q hq))
        exact ⟨n + 1, by rw [Sys.ancestor, hq]; exact hn⟩

/-- **No orphans.**  In every state, `wait_lock` held or not: a process that has not been freed, `initproc` apart,
has a live parent; the parents lead to `initproc`; a `ZOMBIE` has no children.  Every exited process has one
record; `wait` returns records of exited processes, each once; and a `wait` whose `copyout` fails leaves the
`ZOMBIE` to its parent. -/
theorem process_tree (h : Reachable N s) :
    (∀ i, i ≠ initproc → Live (s.state i) ∨ s.state i = .ZOMBIE → ∃ q, s.parent i = some q ∧ Live (s.state q)) ∧
    (∀ i, Live (s.state i) ∨ s.state i = .ZOMBIE → ∃ n, s.ancestor n i = some initproc) ∧
    (∀ z, s.state z = .ZOMBIE → ∀ i, s.parent i ≠ some z) ∧
    (s.exits.map Exit.birth).Nodup ∧ (s.reaped.map Exit.birth).Nodup ∧ s.reaped ⊆ s.exits ∧
    ∀ c i j k, (WaitAct.bad j k).enabled N s c i →
      ((WaitAct.bad j k).next s c i).state j = .ZOMBIE ∧ ((WaitAct.bad j k).next s c i).parent j = some i ∧
      ⟨s.birth j, s.pid j, s.xstate j⟩ ∈ ((WaitAct.bad j k).next s c i).exits ∧
      s.birth j ∉ ((WaitAct.bad j k).next s c i).reaped.map Exit.birth := by
  obtain ⟨htree, hbooks⟩ := family_of_reach h
  refine ⟨fun i hi hst => ?_, fun i hst => ?_, fun z hz i hi => ?_, hbooks.exits, hbooks.reaped, hbooks.returned,
    fun c i j k he => ?_⟩
  · obtain ⟨q, hq⟩ := Option.ne_none_iff_exists'.1 (htree.orphan i hi hst)
    exact ⟨q, hq, htree.live i q hq⟩
  · exact htree.ends_at_initproc (s.birth i + 1) i (Nat.lt_succ_self _) hst
  · exact (htree.live i z hi).ne_zombie hz
  · obtain ⟨-, -, hp, -, hst, -⟩ := he
    exact ⟨hst, hp, hbooks.zombie j hst⟩

end steps

/-- The child when `wait` comes to it, and what `wait` returns. -/
theorem childRun_zombie :
    ((Transition.runActs (step 2) (boot Unit) childRun).map fun s => s.state 1) = some .ZOMBIE ∧
    ((Transition.runActs (step 2) (boot Unit) (childRun ++ [.wait () 0 (.reap 1 false)])).map fun s => s.reaped) =
      some [⟨1, 2, 7⟩] := by
  decide +kernel

theorem process_tree_child :
    (∃ s, Transition.runActs (step 2) (boot Unit) childRun = some s ∧ s.state 1 = .ZOMBIE ∧
      ∃ q, s.parent 1 = some q ∧ Live (s.state q)) ∧
    ∃ s, Transition.runActs (step 2) (boot Unit) (childRun ++ [.wait () 0 (.reap 1 false)]) = some s ∧
      ⟨1, 2, 7⟩ ∈ s.exits := by
  obtain ⟨hrun, hend⟩ := childRun_zombie
  obtain ⟨s, hs, hst⟩ := Option.map_eq_some_iff.1 hrun
  obtain ⟨s', hs', hreaped⟩ := Option.map_eq_some_iff.1 hend
  refine ⟨⟨s, hs, hst, ?_⟩, s', hs', ?_⟩
  · exact (process_tree (.of_run (by decide) hs)).1 1 (by decide) (Or.inr hst)
  · obtain ⟨-, -, -, -, -, hreturned, -⟩ := process_tree (.of_run (by decide) hs')
    exact hreturned (by rw [hreaped]; simp)

end Xv6.Sched
