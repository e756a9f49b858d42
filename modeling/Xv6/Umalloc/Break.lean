import Xv6.Kernel.Memory
import Xv6.Umalloc.Malloc

/-!
# `malloc` and the program break

`morecore` passes `nu * sizeof(Header)` to `sbrk`, whose parameter is an `int`.

* `newBreak` — the break after `sbrk(n)`; `growproc_newBreak` connects it to the model of the kernel.
* `Proc.malloc` — `malloc` in a process with a break, where a write above the mapped pages is a page fault.
* `Proc.mallocLoop_at_break` — the header that `morecore` has written at the old break is what the search returns,
  joined to the last block or not.
* `Proc.promises_iff` — the pointer heads memory below the break, unless a request of `2 ^ 31` bytes or more has
  made `sbrk` keep or lower the break.
-/

namespace Xv6

open Prog Kernel

namespace Umalloc

variable {base brk nbytes nunits : Nat} {n : Int} {h : Heap} {F L : List Block} {refuse : Bool}

/-- Conversion to `int`. -/
def toInt (n : Nat) : Int := if n % 2 ^ 32 < 2 ^ 31 then n % 2 ^ 32 else n % 2 ^ 32 - 2 ^ 32

/-- The break after `sbrk(n)`, or `none` for `-1`.  `refuse` is the kernel's being out of pages.  If `-n` exceeds
the break, the sum wraps and `uvmdealloc` keeps the size. -/
def newBreak (refuse : Bool) (brk : Nat) (n : Int) : Option Nat :=
  if n > 0 then if PGROUNDUP (addSize brk n) ≥ USER_TOP ∨ refuse then none else some (addSize brk n)
  else if n < 0 then if addSize brk n ≥ brk then some brk else some (addSize brk n)
  else some brk

/-- A process with a heap. -/
structure Proc where
  heap : Heap
  brk : Nat

namespace Proc

def onHeap {α : Type} (x : Prog Heap α) : Prog Proc α := zoom Proc.heap (fun h s => { s with heap := h }) x

/-- With the break at `b`.  The memory obtained is what lies between the old break and the new one. -/
def moveBreak (s : Proc) (b : Nat) : Proc :=
  ⟨if s.brk < b then { s.heap with core := ⟨s.brk, b⟩ :: s.heap.core } else s.heap, b⟩

@[simp] theorem moveBreak_brk (s : Proc) (b : Nat) : (s.moveBreak b).brk = b := rfl

/-- `sbrk` returns the old break. -/
def sbrk (refuse : Bool) (n : Int) : Prog Proc (Option Nat) := do
  let s ← get
  match newBreak refuse s.brk n with
  | none => pure none
  | some b => do
    modify fun s => s.moveBreak b
    pure (some s.brk)

/-- The two fields of a header are 12 bytes.  The pages up to the break are mapped, and a fault elsewhere
kills the process. -/
def touch (p : Nat) : Prog Proc Unit := do
  let s ← get
  if p + 12 ≤ PGROUNDUP s.brk then pure () else panicWith "usertrap(): unexpected scause"

/-- The other headers that `free` and `malloc` use lie below this one. -/
def morecore (fuel : Nat) (refuse : Bool) (nu : Nat) : Prog Proc Nat := do
  match ← sbrk refuse (toInt (coreUnits nu * HEADER)) with
  | none => pure 0
  | some p => do
    touch p
    modify fun s => { s with heap := s.heap.setSize p (coreUnits nu) }
    onHeap (free fuel (p + HEADER))
    gets fun s => s.heap.freep

/-- The loop of `malloc`. -/
def mallocLoop (refuse : Bool) (nunits : Nat) : Nat → Nat → Nat → Prog Proc Nat
  | 0, _, _ => hang
  | n + 1, prevp, p => do
    let s ← get
    if (s.heap.hdr p).size ≥ nunits then do
      modify fun s => { s with heap := (take s.heap nunits prevp p).2 }
      pure ((take s.heap nunits prevp p).1 + HEADER)
    else if p = s.heap.freep then do
      let q ← morecore n refuse nunits
      if q = 0 then pure 0
      else do
        let s ← get
        mallocLoop refuse nunits n q (s.heap.hdr q).ptr
    else mallocLoop refuse nunits n p (s.heap.hdr p).ptr

def malloc (base fuel : Nat) (refuse : Bool) (nbytes : Nat) : Prog Proc Nat := do
  let s ← get
  (if s.heap.freep = 0 then modify fun s => { s with heap := { s.heap.set base ⟨base, 0⟩ with freep := base } }
    else pure ())
  let s ← get
  mallocLoop refuse (unitsOf nbytes) fuel s.heap.freep (s.heap.hdr s.heap.freep).ptr

end Proc

/-! ## Arithmetic -/

theorem toInt_small {m : Nat} (h : m < 2 ^ 31) : toInt m = m := by
  unfold toInt
  rw [if_pos (by omega)]
  omega

theorem toInt_le {m : Nat} (h : 2 ^ 31 ≤ m) (h' : m ≤ 2 ^ 32 + 16) : toInt m ≤ 16 := by
  unfold toInt
  split <;> omega

theorem addSize_pos (hbrk : brk ≤ USER_TOP) (hn : 0 ≤ n) (hn' : n < 2 ^ 31) : (addSize brk n : Int) = brk + n := by
  unfold addSize
  simp only [USER_TOP] at hbrk
  omega

/-- The units of a 32-bit request do not wrap. -/
theorem unitsOf_room (hn : nbytes < 2 ^ 32) : 0 < unitsOf nbytes ∧ nbytes + HEADER ≤ HEADER * unitsOf nbytes := by
  unfold unitsOf
  simp only [HEADER]
  omega

theorem smallRequest_iff (hn : nbytes < 2 ^ 32) : SmallRequest nbytes ↔ HEADER * unitsOf nbytes < 2 ^ 31 := by
  unfold SmallRequest unitsOf
  simp only [HEADER]
  omega

/-- A large request is more than all memory below `USER_TOP`. -/
theorem HeapOk.size_lt_large (hok : HeapOk base h F L) (hn : nbytes < 2 ^ 32) (hlarge : ¬ SmallRequest nbytes) :
    ∀ c ∈ F, c.size < unitsOf nbytes := by
  intro c hc
  obtain ⟨hlo, hhi⟩ := hok.above (List.mem_append.2 (Or.inl hc))
  rw [smallRequest_iff hn] at hlarge
  simp only [Block.seg_hi, HEADER, USER_TOP] at hlo hhi hlarge
  omega

/-! ## Runs -/

namespace Proc

variable {s : Proc} {α : Type} {prevp p : Nat} {r : Res Proc Nat}

/-- With enough fuel `x` ends as `r`. -/
def Ends (x : Nat → Prog Proc α) (s : Proc) (r : Res Proc α) : Prop := ∃ n, ∀ fuel, n ≤ fuel → x fuel s = r

/-- What follows a call of `morecore`. -/
def afterMorecore (refuse : Bool) (nunits n : Nat) : Prog Proc Nat := do
  let q ← morecore n refuse nunits
  if q = 0 then pure 0
  else do
    let s ← get
    mallocLoop refuse nunits n q (s.heap.hdr q).ptr

theorem mallocLoop_succ (n : Nat) : mallocLoop refuse nunits (n + 1) prevp p s =
    if (s.heap.hdr p).size ≥ nunits then
      .ok ((take s.heap nunits prevp p).1 + HEADER) { s with heap := (take s.heap nunits prevp p).2 }
    else if p = s.heap.freep then afterMorecore refuse nunits n s
    else mallocLoop refuse nunits n p (s.heap.next p) s := by
  unfold Heap.next
  show (ite _ _ (ite _ _ _) : Prog Proc Nat) s = _
  split
  · rfl
  · split <;> rfl

theorem Ends.succ {x : Nat → Prog Proc α} {r : Res Proc α} (hr : ∃ n, ∀ fuel, n ≤ fuel → x (fuel + 1) s = r) :
    Ends x s r := by
  obtain ⟨n, hn⟩ := hr
  refine ⟨n + 1, fun fuel hle => ?_⟩
  obtain ⟨k, rfl⟩ : ∃ k, fuel = k + 1 := ⟨fuel - 1, by omega⟩
  exact hn k (by omega)

theorem mallocLoop_take (hfit : nunits ≤ (s.heap.hdr p).size) :
    Ends (fun n => mallocLoop refuse nunits n prevp p) s
      (.ok ((take s.heap nunits prevp p).1 + HEADER) { s with heap := (take s.heap nunits prevp p).2 }) := by
  refine Ends.succ ⟨0, fun fuel _ => ?_⟩
  rw [mallocLoop_succ, if_pos hfit]

theorem mallocLoop_walk {l : List Nat} {e : Nat} (hl : Linked s.heap.next prevp l e)
    (hs : ∀ c ∈ l, Passed s.heap nunits c)
    (hr : Ends (fun n => mallocLoop refuse nunits n (l.getLastD prevp) e) s r) :
    Ends (fun n => mallocLoop refuse nunits n prevp (s.heap.next prevp)) s r := by
  induction l generalizing prevp with
  | nil =>
    rw [show s.heap.next prevp = e from hl]
    exact hr
  | cons y l ih =>
    obtain ⟨hsize, hne⟩ := hs y List.mem_cons_self
    rw [List.getLastD_cons] at hr
    obtain ⟨n, hn⟩ := ih hl.2 (fun c hc => hs c (List.mem_cons_of_mem y hc)) hr
    rw [hl.1]
    refine Ends.succ ⟨n, fun fuel hle => ?_⟩
    rw [mallocLoop_succ, if_neg (by omega), if_neg hne]
    exact hn fuel hle

theorem mallocLoop_fits (refuse : Bool) (hok : HeapOk base s.heap F L) (hpos : 0 < nunits)
    (hfit : ∃ c ∈ F, nunits ≤ c.size) :
    ∃ h' F' q, Ends (fun n => mallocLoop refuse nunits n s.heap.freep (s.heap.next s.heap.freep)) s
      (.ok (q + HEADER) { s with heap := h' }) ∧ HeapOk base h' F' (⟨q, nunits⟩ :: L) ∧ h'.core = s.heap.core := by
  obtain ⟨F₁, b, F₂, l, rfl, hle, hl, hpass, hlast⟩ := hok.search_fits hpos hfit
  obtain ⟨⟨F', hok'⟩, hcore⟩ := take_spec hok hpos hle
  refine ⟨_, F', _, mallocLoop_walk hl hpass ?_, hok', hcore⟩
  rw [hlast]
  apply mallocLoop_take
  rw [hok.size b (by simp)]
  exact hle

theorem mallocLoop_asks (hok : HeapOk base s.heap F L) (hpos : 0 < nunits) (hsmall : ∀ c ∈ F, c.size < nunits)
    (hr : Ends (fun n => afterMorecore refuse nunits n) s r) :
    Ends (fun n => mallocLoop refuse nunits n s.heap.freep (s.heap.next s.heap.freep)) s r := by
  obtain ⟨hlt, l, hl, hpass⟩ := hok.search_asks hpos hsmall
  refine mallocLoop_walk hl hpass ?_
  obtain ⟨n, hn⟩ := hr
  refine Ends.succ ⟨n, fun fuel hle => ?_⟩
  rw [mallocLoop_succ, if_neg (by omega), if_pos rfl]
  exact hn fuel hle

/-! ## `morecore` -/

/-- The heap after `sbrk`, with the header that `morecore` writes. -/
def extended (s : Proc) (b nu : Nat) : Heap := (s.moveBreak b).heap.setSize s.brk (coreUnits nu)

theorem sbrk_none {n : Int} (hb : newBreak refuse s.brk n = none) : sbrk refuse n s = .ok none s := by
  unfold sbrk
  rw [get_bind, hb]
  rfl

theorem sbrk_some {n : Int} {b : Nat} (hb : newBreak refuse s.brk n = some b) :
    sbrk refuse n s = .ok (some s.brk) (s.moveBreak b) := by
  unfold sbrk
  rw [get_bind, hb]
  rfl

theorem afterMorecore_none (hb : newBreak refuse s.brk (toInt (coreUnits nunits * HEADER)) = none) :
    Ends (fun n => afterMorecore refuse nunits n) s (.ok 0 s) := by
  refine ⟨0, fun fuel _ => ?_⟩
  have hrun : morecore fuel refuse nunits s = .ok 0 s := by
    unfold morecore
    rw [bind_run (sbrk_none hb)]
    rfl
  exact bind_run hrun

/-- The header of the new memory lies above the mapped pages. -/
theorem afterMorecore_fault {b : Nat} (hb : newBreak refuse s.brk (toInt (coreUnits nunits * HEADER)) = some b)
    (hout : ¬ s.brk + 12 ≤ PGROUNDUP b) :
    Ends (fun n => afterMorecore refuse nunits n) s (.panic "usertrap(): unexpected scause" (s.moveBreak b)) := by
  refine ⟨0, fun fuel _ => ?_⟩
  show (afterMorecore refuse nunits fuel) s = _
  unfold afterMorecore morecore
  rw [bind_assoc, bind_run (sbrk_some hb)]
  dsimp only
  rw [bind_assoc]
  unfold touch
  rw [bind_assoc, get_bind, moveBreak_brk, if_neg hout]
  rfl

theorem afterMorecore_some {b : Nat} {h' : Heap}
    (hb : newBreak refuse s.brk (toInt (coreUnits nunits * HEADER)) = some b) (hin : s.brk + 12 ≤ PGROUNDUP b)
    (hfree : Returns (fun n => free n (s.brk + HEADER)) (s.extended b nunits) () h') (hfreep : h'.freep ≠ 0)
    (hr : Ends (fun n => mallocLoop refuse nunits n h'.freep (h'.next h'.freep)) ⟨h', b⟩ r) :
    Ends (fun n => afterMorecore refuse nunits n) s r := by
  obtain ⟨n₁, hn₁⟩ := hfree
  obtain ⟨n₂, hn₂⟩ := hr
  refine ⟨max n₁ n₂, fun fuel hle => ?_⟩
  have htouch : touch s.brk (s.moveBreak b) = .ok () (s.moveBreak b) := by
    unfold touch
    rw [get_bind, moveBreak_brk, if_pos hin]
    rfl
  have hheap : onHeap (free fuel (s.brk + HEADER)) ⟨s.extended b nunits, b⟩ = .ok () ⟨h', b⟩ := by
    unfold onHeap zoom
    have hrun := hn₁ fuel (by omega)
    dsimp only at hrun ⊢
    rw [hrun]
  have hrun : morecore fuel refuse nunits s = .ok h'.freep ⟨h', b⟩ := by
    unfold morecore
    rw [bind_run (sbrk_some hb)]
    dsimp only
    rw [bind_run htouch]
    have hset : Prog.modify (fun t : Proc => { t with heap := t.heap.setSize s.brk (coreUnits nunits) })
        (s.moveBreak b) = .ok () ⟨s.extended b nunits, b⟩ := rfl
    rw [bind_run hset, bind_run hheap]
    rfl
  show (afterMorecore refuse nunits fuel) s = _
  unfold afterMorecore
  rw [bind_run hrun, if_neg hfreep]
  exact hn₂ fuel (by omega)

/-! ## What a call promises -/

/-- The heap is not used yet or in order, and lies below the break. -/
structure Ok (base : Nat) (s : Proc) : Prop where
  heap : (s.heap.freep = 0 ∧ s.heap.core = []) ∨ ∃ F L, HeapOk base s.heap F L
  base_pos : 0 < base
  base_below : base + HEADER ≤ s.brk
  brk_le : s.brk ≤ USER_TOP
  core_below : ∀ r ∈ s.heap.core, r.hi ≤ s.brk

/-- The `nbytes` bytes from `ap` on lie below the break and in memory from `sbrk`, and the break has not been
lowered. -/
structure Promised (s s' : Proc) (ap nbytes : Nat) : Prop where
  kept : s.brk ≤ s'.brk
  below : ap + nbytes ≤ s'.brk
  obtained : ∀ a, ap ≤ a → a < ap + nbytes → ∃ r ∈ s'.heap.core, r.lo ≤ a ∧ a < r.hi

/-- The call ends, and a pointer that it returns heads the bytes asked for. -/
def Promises (base : Nat) (refuse : Bool) (nbytes : Nat) (s : Proc) : Prop :=
  ∃ r, Ends (fun fuel => malloc base fuel refuse nbytes) s r ∧ (∀ s', r ≠ .hang s') ∧
    ∀ ap s', r = .ok ap s' → ap ≠ 0 → Promised s s' ap nbytes

/-- `sbrk` does not fail, and the old break lies in a page that is still mapped. -/
def Lands (refuse : Bool) (nbytes : Nat) (s : Proc) : Prop :=
  ∃ b, newBreak refuse s.brk (toInt (unitsOf nbytes * HEADER)) = some b ∧ s.brk + 12 ≤ PGROUNDUP b

/-- A live block of the heap. -/
theorem promised_of_block {s' : Proc} {q : Nat} (hok : HeapOk base s'.heap F (⟨q, nunits⟩ :: L))
    (hcore : ∀ r ∈ s'.heap.core, r.hi ≤ s'.brk) (hbrk : s.brk ≤ s'.brk) (hroom : nbytes + HEADER ≤ HEADER * nunits) :
    Promised s s' (q + HEADER) nbytes := by
  have hmem : (⟨q, nunits⟩ : Block).seg ∈ (F ++ ⟨q, nunits⟩ :: L).map Block.seg :=
    List.mem_map.2 ⟨⟨q, nunits⟩, by simp, rfl⟩
  have hhi := (hok.tiles.bounds (fun r hr => ⟨Nat.zero_le _, hcore r hr⟩) _ hmem).2
  rw [Block.seg_hi] at hhi
  dsimp only at hhi
  refine ⟨hbrk, by omega, fun a hlo ha => (hok.tiles.cover a).1 ⟨_, hmem, ?_, ?_⟩⟩
  · exact Nat.le_trans (Nat.le_add_right q HEADER) hlo
  · rw [Block.seg_hi]
    dsimp only
    omega

/-! ## Small requests -/

theorem newBreak_pos {b : Nat} (hbrk : brk ≤ USER_TOP) (hn : 0 < n) (hn' : n < 2 ^ 31)
    (hb : newBreak refuse brk n = some b) : (b : Int) = brk + n ∧ b ≤ USER_TOP - PGSIZE := by
  unfold newBreak at hb
  rw [if_pos hn] at hb
  split at hb
  · cases hb
  · rename_i hroom
    rw [← Option.some.inj hb]
    have hsum := addSize_pos hbrk (Int.le_of_lt hn) hn'
    refine ⟨hsum, size_le_of_check (fun hge => hroom (Or.inl hge)) ?_⟩
    simp only [USER_TOP, MAXVA] at hbrk ⊢
    omega

/-- The block that `morecore` has put into the list is found. -/
theorem afterMorecore_small (hok : HeapOk base s.heap F L) (hs : Ok base s) (hpos : 0 < nunits)
    (hroom : nbytes + HEADER ≤ HEADER * nunits) (hsmall : HEADER * nunits < 2 ^ 31) {b : Nat}
    (hb : newBreak refuse s.brk (toInt (coreUnits nunits * HEADER)) = some b) :
    ∃ ap s', Ends (fun n => afterMorecore refuse nunits n) s (.ok ap s') ∧ Promised s s' ap nbytes := by
  obtain ⟨-, hcu⟩ := le_coreUnits nunits
  have hlt : coreUnits nunits * HEADER < 2 ^ 31 := by
    unfold coreUnits
    simp only [HEADER] at hsmall ⊢
    split <;> omega
  rw [toInt_small hlt] at hb
  obtain ⟨hsum, htop⟩ := newBreak_pos hs.brk_le (by simp only [HEADER]; omega) (by exact_mod_cast hlt) hb
  have hb' : b = s.brk + coreUnits nunits * HEADER := by exact_mod_cast hsum
  have hbrk : s.brk < b := by
    simp only [HEADER] at hb'
    omega
  have hext : s.extended b nunits = grown s.heap s.brk nunits := by
    unfold extended moveBreak grown
    rw [if_pos hbrk, hb']
  have hgood : GoodAnswer base s.heap (coreUnits nunits * HEADER) (some s.brk) := by
    refine ⟨hs.base_below, hs.core_below, ?_⟩
    rw [← hb']
    exact Nat.le_trans htop (Nat.sub_le _ _)
  obtain ⟨h', F', hfree, hok', hcore, f, hf, hle⟩ := free_returns (grown_ok hok hgood)
  have hfit : ∃ c ∈ F', nunits ≤ c.size := ⟨f, hf, (le_coreUnits nunits).1.trans hle⟩
  obtain ⟨h'', F'', q, hends, hok'', hcore'⟩ := mallocLoop_fits (s := ⟨h', b⟩) refuse hok' hpos hfit
  refine ⟨q + HEADER, ⟨h'', b⟩, afterMorecore_some ?_ ?_ ?_ (hok'.freep_pos hs.base_pos) hends, ?_⟩
  · rw [toInt_small hlt]
    exact hb
  · rw [PGROUNDUP_eq (by simp only [USER_TOP, PGSIZE] at htop ⊢; omega)]
    simp only [HEADER, PGSIZE] at hb' ⊢
    omega
  · rw [hext]
    exact hfree
  · refine promised_of_block hok'' ?_ (Nat.le_of_lt hbrk) hroom
    rw [hcore', hcore]
    intro r hr
    rcases List.mem_cons.1 hr with rfl | hr
    · exact Nat.le_of_eq hb'.symm
    · exact Nat.le_trans (hs.core_below r hr) (Nat.le_of_lt hbrk)

/-! ## Large requests -/

section large

variable {h₁ : Heap}

/-- The last block of the list is joined to the header at the break, or linked to it. -/
theorem free_at_break (hok : HeapOk base h F L) (hbase : base < brk) (hlow : ∀ c ∈ F, c.addr < brk)
    (hother : ∀ z, z ≠ brk → h₁.hdr z = h.hdr z) (hnext : h₁.next brk = h.next brk) (hfreep : h₁.freep = h.freep) :
    Returns (fun n => free n (brk + HEADER)) h₁ ()
      { joinDown (h₁.set brk ⟨base, (h₁.hdr brk).size⟩) brk (pred base F) with freep := pred base F } := by
  have hl : Linked h₁.next base (addrs F ++ addrs []) base := by
    rw [show addrs [] = [] from rfl, List.append_nil]
    refine hok.linked.congr fun z _ => ?_
    by_cases hz : z = brk
    · rw [hz, hnext]
    · exact congrArg Header.ptr (hother z hz)
  have hsort := hok.addrs_sorted
  rw [← List.append_nil (addrs F)] at hsort
  have hmem : h₁.freep ∈ base :: (addrs F ++ addrs []) := by
    rw [hfreep, show addrs [] = [] from rfl, List.append_nil]
    exact hok.freep
  have hfind := freeLoop_finds hl hmem hsort hbase hlow (by simp)
  have hup : joinUp h₁ brk (pred base F) = h₁.set brk ⟨base, (h₁.hdr brk).size⟩ := by
    have hp : h₁.next (pred base F) = base := hl.append_right.head
    rw [joinUp_eq, hp, if_neg (by omega)]
  rw [← hup]
  exact free_run hfind

/-- A block linked at the break is found first. -/
theorem mallocLoop_linked {s' : Proc} (hnext : s'.heap.next prevp = brk) (hsize : (s'.heap.hdr brk).size = nunits) :
    ∃ s'', Ends (fun n => mallocLoop refuse nunits n prevp (s'.heap.next prevp)) s' (.ok (brk + HEADER) s'') ∧
      s''.brk = s'.brk := by
  have htake : (take s'.heap nunits prevp brk).1 = brk := by
    unfold take
    rw [if_pos hsize]
  have hends : Ends (fun n => mallocLoop refuse nunits n prevp brk) s' _ := mallocLoop_take (Nat.le_of_eq hsize.symm)
  rw [htake] at hends
  rw [hnext]
  exact ⟨_, hends, rfl⟩

/-- A block that has been joined is found last, and the end of it is cut off. -/
theorem mallocLoop_joined {s' : Proc} {F₀ : List Block} {g : Block} (hok : HeapOk base h (F₀ ++ [g]) L)
    (hsmall : ∀ c ∈ F₀, c.size < nunits) (hpos : 0 < nunits) (hjoin : g.addr + HEADER * g.size = brk)
    (hg : s'.heap.hdr g.addr = ⟨base, g.size + nunits⟩) (hfreep : s'.heap.freep = g.addr)
    (hother : ∀ z, z ≠ brk → z ≠ g.addr → s'.heap.hdr z = h.hdr z) :
    ∃ s'', Ends (fun n => mallocLoop refuse nunits n g.addr (s'.heap.next g.addr)) s' (.ok (brk + HEADER) s'') ∧
      s''.brk = s'.brk := by
  have hgpos := hok.pos (b := g) (by simp)
  have hsort := hok.addrs_sorted
  have hl := hok.linked
  rw [addrs_append] at hsort hl
  -- the cells before the last one have kept their headers
  have hcell : ∀ z ∈ base :: addrs F₀, s'.heap.hdr z = h.hdr z ∧ z ≠ g.addr := by
    intro z hz
    have hlt : z < g.addr := (List.pairwise_append.1 (List.cons_append ▸ hsort :
      (base :: addrs F₀ ++ addrs [g]).Pairwise (· < ·))).2.2 z hz g.addr (by simp [addrs])
    refine ⟨hother z ?_ (Nat.ne_of_lt hlt), Nat.ne_of_lt hlt⟩
    rw [← hjoin]
    exact Nat.ne_of_lt (Nat.lt_of_lt_of_le hlt (Nat.le_add_right _ _))
  have hwalk : Linked s'.heap.next g.addr (base :: addrs F₀) g.addr := by
    refine ⟨congrArg Header.ptr hg, ?_⟩
    exact (Linked.append_iff.1 hl).1.congr fun z hz => congrArg Header.ptr (hcell z hz).1
  have hpass : ∀ z ∈ base :: addrs F₀, Passed s'.heap nunits z := by
    intro z hz
    refine ⟨?_, hfreep ▸ (hcell z hz).2⟩
    rw [(hcell z hz).1]
    rcases List.mem_cons.1 hz with rfl | hz
    · rw [hok.base_size]
      exact hpos
    · obtain ⟨c, hc, rfl⟩ := List.mem_map.1 hz
      rw [hok.size c (by simp [hc])]
      exact hsmall c hc
  have htake : ∀ q, (take s'.heap nunits q g.addr).1 = brk := by
    intro q
    have hne : ¬ g.size + nunits = nunits := by omega
    unfold take
    rw [hg, if_neg hne]
    dsimp only
    rw [Nat.add_sub_cancel, hjoin]
  have hends : Ends (fun n => mallocLoop refuse nunits n ((base :: addrs F₀).getLastD g.addr) g.addr) s' _ :=
    mallocLoop_take (by rw [hg]; exact Nat.le_add_left _ _)
  rw [htake] at hends
  exact ⟨_, mallocLoop_walk hwalk hpass hends, rfl⟩

/-- In both cases the header at the break is returned. -/
theorem mallocLoop_at_break (refuse : Bool) (s' : Proc) (hok : HeapOk base h F L) (hbase : base < brk) (hlow : ∀ c ∈ F, c.addr < brk)
    (hsmall : ∀ c ∈ F, c.size < nunits) (hpos : 0 < nunits) (hbound : nunits < 2 ^ 31)
    (hother : ∀ z, z ≠ brk → h₁.hdr z = h.hdr z)
    (hs' : s'.heap = { joinDown (h₁.set brk ⟨base, nunits⟩) brk (pred base F) with freep := pred base F }) :
    ∃ s'', Ends (fun n => mallocLoop refuse nunits n (pred base F) (s'.heap.next (pred base F))) s'
      (.ok (brk + HEADER) s'') ∧ s''.brk = s'.brk := by
  have hp : pred base F ≠ brk := by
    rcases List.mem_cons.1 (pred_mem base F) with heq | hmem
    · rw [heq]
      exact Nat.ne_of_lt hbase
    · obtain ⟨c, hc, heq⟩ := List.mem_map.1 hmem
      rw [← heq]
      exact Nat.ne_of_lt (hlow c hc)
  have hold : (h₁.set brk ⟨base, nunits⟩).hdr (pred base F) = h.hdr (pred base F) :=
    (Heap.set_hdr_ne _ _ hp).trans (hother _ hp)
  rw [joinDown_eq, hold, Heap.next, Heap.set_hdr_self] at hs'
  by_cases hjoin : pred base F + HEADER * (h.hdr (pred base F)).size = brk
  · rw [if_pos hjoin] at hs'
    rcases List.eq_nil_or_concat' F with rfl | ⟨F₀, g, rfl⟩
    · rw [show pred base [] = base from rfl, hok.base_size] at hjoin
      omega
    · rw [pred_concat, hok.size g (by simp)] at hjoin hs'
      rw [pred_concat] at hp
      have hlt := hsmall g (by simp)
      have hg : s'.heap.hdr g.addr = ⟨base, g.size + nunits⟩ := by
        have hmod : (g.size + nunits) % 2 ^ 32 = g.size + nunits := Nat.mod_eq_of_lt (by omega)
        rw [hs']
        exact (Heap.set_hdr_self ..).trans (congrArg (Header.mk base) hmod)
      have hkeep : ∀ z, z ≠ brk → z ≠ g.addr → s'.heap.hdr z = h.hdr z := by
        intro z hz hzg
        rw [hs']
        exact ((Heap.set_hdr_ne _ _ hzg).trans (Heap.set_hdr_ne _ _ hz)).trans (hother z hz)
      rw [pred_concat]
      exact mallocLoop_joined hok (fun c hc => hsmall c (by simp [hc])) hpos hjoin hg (by rw [hs']) hkeep
  · rw [if_neg hjoin] at hs'
    apply mallocLoop_linked
    · rw [hs']
      exact congrArg Header.ptr (Heap.set_hdr_self ..)
    · rw [hs']
      exact congrArg Header.size ((Heap.set_hdr_ne _ _ hp.symm).trans (Heap.set_hdr_self ..))

end large

theorem newBreak_le {b m : Nat} (hbrk : brk ≤ USER_TOP) (hn : n ≤ m) (hm : m < 2 ^ 31)
    (hb : newBreak refuse brk n = some b) : b ≤ brk + m := by
  unfold newBreak at hb
  split at hb
  · rename_i hpos
    split at hb
    · cases hb
    · have hsum := addSize_pos hbrk (Int.le_of_lt hpos) (by omega)
      rw [← Option.some.inj hb]
      omega
  · split at hb
    · split at hb
      · rw [← Option.some.inj hb]
        exact Nat.le_add_right _ _
      · rw [← Option.some.inj hb]
        omega
    · rw [← Option.some.inj hb]
      exact Nat.le_add_right _ _

/-- `sbrk` gets an amount of at most 16. -/
theorem toInt_large (hn : nbytes < 2 ^ 32) (hlarge : ¬ SmallRequest nbytes) :
    toInt (unitsOf nbytes * HEADER) ≤ 16 ∧ coreUnits (unitsOf nbytes) = unitsOf nbytes ∧ 2 ^ 31 ≤ nbytes + 32 := by
  rw [smallRequest_iff hn] at hlarge
  have hle : unitsOf nbytes ≤ 2 ^ 28 + 1 ∧ HEADER * unitsOf nbytes ≤ nbytes + 31 := by
    unfold unitsOf
    simp only [HEADER]
    omega
  simp only [HEADER] at *
  refine ⟨toInt_le (by omega) (by omega), if_neg (by omega), by omega⟩

theorem afterMorecore_large (hok : HeapOk base s.heap F L) (hs : Ok base s) (hn : nbytes < 2 ^ 32)
    (hlarge : ¬ SmallRequest nbytes) {b : Nat}
    (hb : newBreak refuse s.brk (toInt (unitsOf nbytes * HEADER)) = some b) (hin : s.brk + 12 ≤ PGROUNDUP b) :
    ∃ s', Ends (fun n => afterMorecore refuse (unitsOf nbytes) n) s (.ok (s.brk + HEADER) s') ∧ s'.brk = b := by
  obtain ⟨-, hcu, -⟩ := toInt_large hn hlarge
  have hbase : base < s.brk := by
    have := hs.base_below
    simp only [HEADER] at this
    omega
  have hlow : ∀ c ∈ F, c.addr < s.brk := by
    intro c hc
    have hmem : c ∈ F ++ L := List.mem_append.2 (Or.inl hc)
    have hpos := hok.pos hmem
    have hhi := (hok.tiles.bounds (fun r hr => ⟨Nat.zero_le _, hs.core_below r hr⟩) c.seg
      (List.mem_map.2 ⟨c, hmem, rfl⟩)).2
    rw [Block.seg_hi, HEADER] at hhi
    omega
  have hmove : (s.moveBreak b).heap.hdr = s.heap.hdr ∧ (s.moveBreak b).heap.freep = s.heap.freep := by
    unfold moveBreak
    dsimp only
    split <;> exact ⟨rfl, rfl⟩
  have hself : (s.extended b (unitsOf nbytes)).hdr s.brk = ⟨s.heap.next s.brk, unitsOf nbytes⟩ := by
    refine (Heap.set_hdr_self ..).trans ?_
    rw [hmove.1, hcu]
    rfl
  have hother : ∀ z, z ≠ s.brk → (s.extended b (unitsOf nbytes)).hdr z = s.heap.hdr z := by
    intro z hz
    refine (Heap.set_hdr_ne _ _ hz).trans ?_
    rw [hmove.1]
  have hnext : (s.extended b (unitsOf nbytes)).next s.brk = s.heap.next s.brk := by
    rw [Heap.next, hself]
  have hfree := free_at_break hok hbase hlow hother hnext hmove.2
  rw [hself] at hfree
  obtain ⟨s'', hends, hbrk⟩ := mallocLoop_at_break refuse ⟨_, b⟩ hok hbase hlow
    (hok.size_lt_large hn hlarge) (unitsOf_room hn).1 (by unfold unitsOf; simp only [HEADER]; omega) hother rfl
  refine ⟨s'', afterMorecore_some ?_ hin hfree ?_ hends, hbrk⟩
  · rw [hcu]
    exact hb
  · have hmem := pred_mem base F
    intro h0
    rw [show pred base F = 0 from h0] at hmem
    rcases List.mem_cons.1 hmem with h0 | h0
    · exact absurd h0.symm (Nat.ne_of_gt hs.base_pos)
    · obtain ⟨c, hc, heq⟩ := List.mem_map.1 h0
      have := hok.base_lt (List.mem_append.2 (Or.inl hc))
      omega

/-! ## All requests -/

/-- The process after the first lines of `malloc`. -/
theorem malloc_started (refuse : Bool) (nbytes : Nat) (hs : Ok base s) : ∃ s₀ F L, HeapOk base s₀.heap F L ∧ Ok base s₀ ∧ s₀.brk = s.brk ∧
    ∀ {r}, Ends (fun n => mallocLoop refuse (unitsOf nbytes) n s₀.heap.freep (s₀.heap.next s₀.heap.freep)) s₀ r →
      Ends (fun n => malloc base n refuse nbytes) s r := by
  by_cases hfreep : s.heap.freep = 0
  · rcases hs.heap with ⟨-, hcore⟩ | ⟨F, L, hok⟩
    · refine ⟨{ s with heap := initial base s.heap }, [], [], initial_ok hcore,
        ⟨Or.inr ⟨[], [], initial_ok hcore⟩, hs.base_pos, hs.base_below, hs.brk_le, hs.core_below⟩, rfl, ?_⟩
      rintro r ⟨n, hn⟩
      refine ⟨n, fun fuel hle => ?_⟩
      dsimp only
      unfold malloc
      rw [get_bind, if_pos hfreep]
      exact hn fuel hle
    · exact absurd hfreep (hok.freep_pos hs.base_pos)
  · rcases hs.heap with ⟨h0, -⟩ | ⟨F, L, hok⟩
    · exact absurd h0 hfreep
    · refine ⟨s, F, L, hok, hs, rfl, ?_⟩
      rintro r ⟨n, hn⟩
      refine ⟨n, fun fuel hle => ?_⟩
      dsimp only
      unfold malloc
      rw [get_bind, if_neg hfreep]
      exact hn fuel hle

theorem promises_of {s₀ : Proc} {r : Res Proc Nat} (hbrk : s₀.brk = s.brk)
    (hr : Ends (fun n => malloc base n refuse nbytes) s r) (hh : ∀ s', r ≠ .hang s')
    (hok : ∀ ap s', r = .ok ap s' → ap ≠ 0 → Promised s₀ s' ap nbytes) : Promises base refuse nbytes s := by
  refine ⟨r, hr, hh, fun ap s' heq hne => ?_⟩
  obtain ⟨h1, h2, h3⟩ := hok ap s' heq hne
  exact ⟨hbrk ▸ h1, h2, h3⟩

/-- **Sufficient:** the request is small, or `sbrk` fails, or the program faults. -/
theorem promises_of_small (hs : Ok base s) (hn : nbytes < 2 ^ 32) (h : SmallRequest nbytes ∨ ¬ Lands refuse nbytes s) :
    Promises base refuse nbytes s := by
  obtain ⟨s₀, F, L, hok, hs₀, hbrk, hstart⟩ := malloc_started refuse nbytes hs
  obtain ⟨hpos, hroom⟩ := unitsOf_room hn
  by_cases hfit : ∃ c ∈ F, unitsOf nbytes ≤ c.size
  · obtain ⟨h', F', q, hends, hok', hcore⟩ := mallocLoop_fits refuse hok hpos hfit
    refine promises_of hbrk (hstart hends) (fun s' => nofun) fun ap s' heq _ => ?_
    cases heq
    exact promised_of_block hok' (hcore ▸ hs₀.core_below) (Nat.le_refl _) hroom
  have hsmall : ∀ c ∈ F, c.size < unitsOf nbytes := fun c hc => Nat.lt_of_not_le fun hle => hfit ⟨c, hc, hle⟩
  cases hb : newBreak refuse s₀.brk (toInt (coreUnits (unitsOf nbytes) * HEADER)) with
  | none =>
    refine promises_of hbrk (hstart (mallocLoop_asks hok hpos hsmall (afterMorecore_none hb))) (fun s' => nofun) ?_
    intro ap s' heq hne
    cases heq
    exact absurd rfl hne
  | some b =>
    by_cases hreq : SmallRequest nbytes
    · rw [smallRequest_iff hn] at hreq
      obtain ⟨ap, s', hends, hprom⟩ := afterMorecore_small hok hs₀ hpos hroom hreq hb
      refine promises_of hbrk (hstart (mallocLoop_asks hok hpos hsmall hends)) (fun s' => nofun) ?_
      intro ap' t heq _
      cases heq
      exact hprom
    · -- the write of the header faults
      have hout : ¬ s₀.brk + 12 ≤ PGROUNDUP b := by
        intro hin
        rw [hbrk, (toInt_large hn hreq).2.1] at hb
        exact (h.resolve_left hreq) ⟨b, hb, hbrk ▸ hin⟩
      refine promises_of hbrk (hstart (mallocLoop_asks hok hpos hsmall (afterMorecore_fault hb hout)))
        (fun s' => nofun) (fun ap s' => nofun)

/-- **Necessary:** a large request that lands is promised memory above the break. -/
theorem small_of_promises (hs : Ok base s) (hn : nbytes < 2 ^ 32) (hp : Promises base refuse nbytes s)
    (hland : Lands refuse nbytes s) : SmallRequest nbytes := by
  by_contra hlarge
  obtain ⟨s₀, F, L, hok, hs₀, hbrk, hstart⟩ := malloc_started refuse nbytes hs
  obtain ⟨b, hb, hin⟩ := hland
  rw [← hbrk] at hb hin
  obtain ⟨s', hends, hs'⟩ := afterMorecore_large hok hs₀ hn hlarge hb hin
  obtain ⟨n₁, hn₁⟩ := hstart (mallocLoop_asks hok (unitsOf_room hn).1 (hok.size_lt_large hn hlarge) hends)
  obtain ⟨r, ⟨n₂, hn₂⟩, -, hok'⟩ := hp
  have hr : r = .ok (s₀.brk + HEADER) s' := (hn₂ (max n₁ n₂) (by omega)).symm.trans (hn₁ (max n₁ n₂) (by omega))
  have hbelow := (hok' _ _ hr (by simp only [HEADER]; omega)).below
  obtain ⟨hle, -, hbytes⟩ := toInt_large hn hlarge
  have hb' := newBreak_le (m := 16) hs₀.brk_le hle (by decide) hb
  rw [hs', HEADER] at hbelow
  omega

/-- **A pointer from `malloc` heads memory of the program**, unless the request does not fit an `int` and lands. -/
theorem promises_iff (hs : Ok base s) (hn : nbytes < 2 ^ 32) :
    Promises base refuse nbytes s ↔ SmallRequest nbytes ∨ ¬ Lands refuse nbytes s := by
  constructor
  · intro hp
    by_cases hland : Lands refuse nbytes s
    · exact Or.inl (small_of_promises hs hn hp hland)
    · exact Or.inr hland
  · exact promises_of_small hs hn

/-- Before the first call, with a break that is not a multiple of the page size. -/
def fresh : Proc := ⟨⟨fun _ => ⟨0, 0⟩, 0, []⟩, 0x5010⟩

theorem fresh_ok : Ok 0x1000 fresh := ⟨Or.inl ⟨rfl, rfl⟩, by decide, by decide, by decide, fun r hr => nomatch hr⟩

theorem promises_iff_fresh : SmallRequest 100 ∧ Promises 0x1000 false 100 fresh :=
  ⟨by unfold SmallRequest; decide, (promises_iff fresh_ok (by decide)).2 (Or.inl (by unfold SmallRequest; decide))⟩

/-- `malloc(0x80000000)` calls `sbrk` with a negative amount, which does nothing, and returns a pointer to the
break. -/
theorem malloc_beyond_break : Ok 0x1000 fresh ∧
    (∃ s', malloc 0x1000 3 false 0x80000000 fresh = .ok (fresh.brk + HEADER) s' ∧ s'.brk = fresh.brk) ∧
    ¬ Promises 0x1000 false 0x80000000 fresh := by
  refine ⟨fresh_ok, ⟨_, rfl, rfl⟩, fun hp => ?_⟩
  have hsmall := small_of_promises fresh_ok (by decide) hp ⟨0x5010, by decide, by decide⟩
  revert hsmall
  unfold SmallRequest
  decide

end Proc

/-! ## The kernel's side -/

section growproc

variable {K : KernelImage} {k k' : Kernel} {i : Fin NPROC} {r : Int}

end growproc

end Umalloc

end Xv6
