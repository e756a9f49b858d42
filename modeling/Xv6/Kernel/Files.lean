import Xv6.Fs.Books
import Xv6.Lib.Tally
import Xv6.Proc.Alloc

/-!
# Files and pipes

* `Kernel.slots`, `Kernel.inodes`, `Kernel.cwds` — who refers to file structures and to inodes.
* `Kernel.pipes` — the pages of the live pipes.
* `FileInv k x` — `ref` counts the descriptors that point to a file structure, and `x` more references that
  the running call has taken or owes; a live pipe has one file structure for each open end.
* `KInv` — the invariant of the kernel: memory, files, and a file system whose books are what the running
  call holds over the references of files and processes.
* `filedup`, `fileclose`, `pipealloc`, `fdalloc` keep it.
-/

namespace Xv6

open Prog Function

/-- The inode that an open file structure names. -/
def File.inode (x : File) : Option (Fin NINODE) :=
  match x.type with
  | .FD_INODE | .FD_DEVICE => x.ip
  | .FD_NONE | .FD_PIPE => none

/-- `f->ref = 0; f->type = FD_NONE`. -/
def File.dropped (x : File) : File := { x with ref := 0, type := .FD_NONE }

/-- A process without open files. -/
def Proc.Closed (p : Proc) : Prop := (∀ fd, p.ofile fd = none) ∧ p.cwd = none

namespace Kernel

/-- The descriptors of all processes. -/
def slots (k : Kernel) (c : Fin NPROC × Fin NOFILE) : Option (Fin NFILE) := (k.proc c.1).ofile c.2

def inodes (k : Kernel) (f : Fin NFILE) : Option (Fin NINODE) := (k.file f).inode

def cwds (k : Kernel) (i : Fin NPROC) : Option (Fin NINODE) := (k.proc i).cwd

/-- The references to an inode from open files and current directories. -/
def names (k : Kernel) (ip : Fin NINODE) : Nat := tally k.inodes ip + tally k.cwds ip

def pipes (k : Kernel) : Finset Nat :=
  (Finset.univ.filter fun f => (k.file f).type = .FD_PIPE).image fun f => (k.file f).pipe

/-- `readopen` or `writeopen`. -/
def pipeEnd (k : Kernel) (pi : Nat) (w : Bool) : Bool :=
  if w then (k.pipe pi).writeopen else (k.pipe pi).readopen

theorem mem_pipes {k : Kernel} {pi : Nat} :
    pi ∈ k.pipes ↔ ∃ f, (k.file f).type = .FD_PIPE ∧ (k.file f).pipe = pi := by
  simp [pipes]

end Kernel

/-- The books with the references `n` under them. -/
def Books.above (b : Books) (n : Fin NINODE → Nat) : Books := { b with ref := fun ip => n ip + b.ref ip }

/-- A call that holds nothing. -/
def Books.idle : Books := ⟨fun _ => 0, fun _ => false, [], 0⟩

structure FileInv (k : Kernel) (x : Fin NFILE → Int) : Prop where
  ref : ∀ f, (k.file f).ref = tally k.slots f + x f
  nonneg : ∀ f, 0 ≤ (k.file f).ref
  free : ∀ f, (k.file f).ref = 0 → (k.file f).type = .FD_NONE
  opened : ∀ f, (k.file f).type = .FD_PIPE → k.pipeEnd (k.file f).pipe (k.file f).writable = true
  uniq : ∀ f g, (k.file f).type = .FD_PIPE → (k.file g).type = .FD_PIPE →
    (k.file f).pipe = (k.file g).pipe → (k.file f).writable = (k.file g).writable → f = g
  other : ∀ f, (k.file f).type = .FD_PIPE → ∀ w, k.pipeEnd (k.file f).pipe w = true →
    ∃ g, (k.file g).type = .FD_PIPE ∧ (k.file g).pipe = (k.file f).pipe ∧ (k.file g).writable = w

structure KInv (K : KernelImage) (k : Kernel) (A : Fin NPROC → Option Space) (pg : Fin NPROC → Multiset Nat)
    (B : Multiset Nat) (x : Fin NFILE → Int) (b : Books) : Prop where
  mem : MemInv K k A pg (k.pipes.val + B)
  file : FileInv k x
  fs : Fs.Inv k.fs (b.above k.names)
  closed : ∀ i, (k.proc i).state = .UNUSED ∨ (k.proc i).state = .ZOMBIE → (k.proc i).Closed

variable {K : KernelImage} {k k' : Kernel} {A : Fin NPROC → Option Space} {pg : Fin NPROC → Multiset Nat}
  {B : Multiset Nat} {x : Fin NFILE → Int} {b : Books} {i me : Fin NPROC} {f g : Fin NFILE}
  {fd : Fin NOFILE} {ip : Fin NINODE} {P : String → Prop}

/-! ## Books over the references of files -/

namespace Books

variable {n n' : Fin NINODE → Nat}

theorem above_addRef (m : Int) : (b.above n).addRef ip m = (b.addRef ip m).above n := by
  unfold above addRef
  simp only [mk.injEq, and_true]
  funext jp
  by_cases h : jp = ip
  · subst h
    simp only [update_self, Int.add_assoc]
  · simp only [update_of_ne h]

theorem above_lock (v : Bool) : (b.above n).lock ip v = (b.lock ip v).above n := rfl

/-- A reference that is no longer counted in `n` is held by the call. -/
theorem above_of_names (h : ∀ jp, n jp = n' jp + if some ip = some jp then 1 else 0) :
    b.above n = (b.addRef ip 1).above n' := by
  unfold above addRef
  simp only [mk.injEq, and_true]
  funext jp
  rw [h jp]
  by_cases hj : jp = ip
  · subst hj
    simp only [update_self, if_true]
    push_cast
    omega
  · have hne : ¬ some ip = some jp := fun he => hj (Option.some.inj he).symm
    rw [update_of_ne hj, if_neg hne, Nat.add_zero]

end Books

/-! ## Descriptors -/

theorem Kernel.slots_update {v : Option (Fin NFILE)}
    (hi : (k'.proc i).ofile = update (k.proc i).ofile fd v)
    (ho : ∀ j, j ≠ i → (k'.proc j).ofile = (k.proc j).ofile) :
    k'.slots = update k.slots (i, fd) v := by
  funext c
  obtain ⟨j, fd'⟩ := c
  unfold Kernel.slots
  by_cases hj : j = i
  · subst hj
    rw [hi]
    by_cases hfd : fd' = fd
    · subst hfd
      rw [update_self, update_self]
    · rw [update_of_ne hfd, update_of_ne (fun h => hfd (Prod.mk.inj h).2)]
  · rw [ho j hj, update_of_ne (fun h => hj (Prod.mk.inj h).1)]

/-- The file table stays. -/
theorem FileInv.congr {x' : Fin NFILE → Int} (h : FileInv k x) (hfile : k'.file = k.file)
    (hpipe : k'.pipe = k.pipe) (href : ∀ f, (tally k'.slots f : Int) + x' f = tally k.slots f + x f) :
    FileInv k' x' := by
  have hend : ∀ pi w, k'.pipeEnd pi w = k.pipeEnd pi w := fun pi w => by
    unfold Kernel.pipeEnd
    rw [hpipe]
  refine ⟨fun f => ?_, ?_, ?_, ?_, ?_, ?_⟩
  · rw [href, hfile]
    exact h.ref f
  all_goals
    simp only [hfile, hend]
  · exact h.nonneg
  · exact h.free
  · exact h.opened
  · exact h.uniq
  · exact h.other

theorem Kernel.names_congr (hfile : k'.file = k.file) (hcwd : ∀ i, (k'.proc i).cwd = (k.proc i).cwd) :
    k'.names = k.names := by
  have h1 : k'.inodes = k.inodes := by
    unfold Kernel.inodes
    rw [hfile]
  have h2 : k'.cwds = k.cwds := funext hcwd
  unfold Kernel.names
  rw [h1, h2]

theorem Kernel.pipes_congr (hfile : k'.file = k.file) : k'.pipes = k.pipes := by
  unfold Kernel.pipes
  rw [hfile]

/-- A descriptor is set or cleared. -/
theorem KInv.setFd {v : Option (Fin NFILE)} {x' : Fin NFILE → Int} (h : KInv K k A pg B x b)
    (hk : k' = k.put k.mem i { k.proc i with ofile := update (k.proc i).ofile fd v })
    (hrun : (k.proc i).state ≠ .UNUSED ∧ (k.proc i).state ≠ .ZOMBIE)
    (hx : ∀ f, x' f + (if v = some f then 1 else 0) = x f + if (k.proc i).ofile fd = some f then 1 else 0) :
    KInv K k' A pg B x' b := by
  have hi : k'.proc i = { k.proc i with ofile := update (k.proc i).ofile fd v } := by
    rw [hk, Kernel.put_proc_self]
  have ho : ∀ j, j ≠ i → k'.proc j = k.proc j := fun j hj => by
    rw [hk, Kernel.put_proc_ne hj]
  have hslots : k'.slots = update k.slots (i, fd) v :=
    Kernel.slots_update (by rw [hi]) fun j hj => by rw [ho j hj]
  have hfile : k'.file = k.file := by rw [hk, Kernel.put_file]
  have hcwd : ∀ j, (k'.proc j).cwd = (k.proc j).cwd := by
    intro j
    by_cases hj : j = i
    · rw [hj, hi]
    · rw [ho j hj]
  refine ⟨?_, ?_, ?_, ?_⟩
  · rw [Kernel.pipes_congr hfile]
    refine h.mem.same (by rw [hk, Kernel.put_mem]) fun j => ?_
    by_cases hj : j = i
    · subst hj
      rw [hi]
      exact ⟨Iff.rfl, rfl, rfl, rfl, rfl, rfl, rfl, rfl⟩
    · rw [ho j hj]
      exact Proc.SameMem.refl _
  · refine h.file.congr hfile (by rw [hk, Kernel.put_pipe]) fun f => ?_
    have hcount := tally_update k.slots (i, fd) v f
    rw [← hslots] at hcount
    have hslot : k.slots (i, fd) = (k.proc i).ofile fd := rfl
    rw [hslot] at hcount
    have hxf := hx f
    split_ifs at hcount hxf <;> omega
  · rw [Kernel.names_congr hfile hcwd, hk, Kernel.put_fs]
    exact h.fs
  · intro j hj
    by_cases hji : j = i
    · subst hji
      rw [hi] at hj
      rcases hj with hj | hj
      · exact absurd hj hrun.1
      · exact absurd hj hrun.2
    · rw [ho j hji] at hj ⊢
      exact h.closed j hj

/-! ## `fdalloc`, `filealloc` and `filedup` -/

theorem Kernel.fdalloc_spec {H : Prop} : wpm (Kernel.fdalloc i f) (fun r k' => (r = none ∧ k' = k) ∨
    ∃ fd, r = some fd ∧ (k.proc i).ofile fd = none ∧
      k' = k.put k.mem i { k.proc i with ofile := update (k.proc i).ofile fd (some f) }) P H k := by
  unfold Kernel.fdalloc
  rw [wpm_bind, wpm_readProc]
  split
  · exact Or.inl ⟨rfl, rfl⟩
  · rename_i fd hfd
    have hnone := List.find?_some hfd
    simp only [decide_eq_true_eq] at hnone
    exact Or.inr ⟨fd, rfl, hnone, rfl⟩

/-- The reference that the call holds goes to a descriptor. -/
theorem KInv.giveFd (h : KInv K k A pg B x b) (hnone : (k.proc i).ofile fd = none)
    (hrun : (k.proc i).state ≠ .UNUSED ∧ (k.proc i).state ≠ .ZOMBIE) :
    KInv K (k.put k.mem i { k.proc i with ofile := update (k.proc i).ofile fd (some f) }) A pg B
      (bump x f (-1)) b := by
  refine h.setFd rfl hrun fun g => ?_
  rw [bump_apply, hnone]
  by_cases hg : g = f
  · subst hg
    simp
  · have hne : ¬ some f = some g := fun he => hg (Option.some.inj he).symm
    simp [hg, hne]

/-- The reference of a descriptor goes to the call. -/
theorem KInv.takeFd (h : KInv K k A pg B x b) (hsome : (k.proc i).ofile fd = some f)
    (hrun : (k.proc i).state ≠ .UNUSED ∧ (k.proc i).state ≠ .ZOMBIE) :
    KInv K (k.put k.mem i { k.proc i with ofile := update (k.proc i).ofile fd none }) A pg B
      (bump x f 1) b := by
  refine h.setFd rfl hrun fun g => ?_
  rw [bump_apply, hsome]
  by_cases hg : g = f
  · subst hg
    simp
  · have hne : ¬ some f = some g := fun he => hg (Option.some.inj he).symm
    simp [hg, hne]

theorem Kernel.file_upd (F : File → File) (g : Fin NFILE) :
    (k.updFile f F).file g = if g = f then F (k.file f) else k.file g := by
  unfold Kernel.updFile
  dsimp only
  by_cases hg : g = f
  · subst hg
    rw [update_self, if_pos rfl]
  · rw [update_of_ne hg, if_neg hg]

section upd

variable {F : File → File}

theorem Kernel.pipes_upd (ht : (F (k.file f)).type = .FD_PIPE ↔ (k.file f).type = .FD_PIPE)
    (hp : (F (k.file f)).pipe = (k.file f).pipe) : (k.updFile f F).pipes = k.pipes := by
  ext pi
  simp only [Kernel.mem_pipes, Kernel.file_upd]
  refine exists_congr fun g => ?_
  by_cases hg : g = f
  · subst hg
    rw [if_pos rfl, ht, hp]
  · rw [if_neg hg]

/-- The inode that a file structure names changes. -/
theorem Kernel.names_upd (jp : Fin NINODE) :
    (k.updFile f F).names jp + (if (k.file f).inode = some jp then 1 else 0) =
      k.names jp + if (F (k.file f)).inode = some jp then 1 else 0 := by
  have hinodes : (k.updFile f F).inodes = update k.inodes f (F (k.file f)).inode := by
    funext g
    unfold Kernel.inodes
    rw [Kernel.file_upd]
    by_cases hg : g = f
    · subst hg
      rw [if_pos rfl, update_self]
    · rw [if_neg hg, update_of_ne hg]
  have hcount := tally_update k.inodes f (F (k.file f)).inode jp
  rw [← hinodes, show k.inodes f = (k.file f).inode from rfl] at hcount
  have hcwds : (k.updFile f F).cwds = k.cwds := rfl
  unfold Kernel.names
  rw [hcwds]
  omega

/-- A file structure changes, but not into a pipe or from one. -/
theorem FileInv.upd (h : FileInv k x) (ht : (F (k.file f)).type = .FD_PIPE ↔ (k.file f).type = .FD_PIPE)
    (hp : (F (k.file f)).pipe = (k.file f).pipe)
    (hw : (k.file f).type = .FD_PIPE → (F (k.file f)).writable = (k.file f).writable)
    (hr : 0 ≤ (F (k.file f)).ref) (hfree : (F (k.file f)).ref = 0 → (F (k.file f)).type = .FD_NONE) :
    FileInv (k.updFile f F) (bump x f ((F (k.file f)).ref - (k.file f).ref)) := by
  have hcase : ∀ g, (((k.updFile f F).file g).type = .FD_PIPE ↔ (k.file g).type = .FD_PIPE) ∧
      ((k.updFile f F).file g).pipe = (k.file g).pipe ∧
      ((k.file g).type = .FD_PIPE → ((k.updFile f F).file g).writable = (k.file g).writable) ∧
      ((k.updFile f F).file g).ref = if g = f then (F (k.file f)).ref else (k.file g).ref := by
    intro g
    rw [Kernel.file_upd]
    by_cases hg : g = f
    · subst hg
      rw [if_pos rfl, if_pos rfl]
      exact ⟨ht, hp, hw, rfl⟩
    · rw [if_neg hg, if_neg hg]
      exact ⟨Iff.rfl, rfl, fun _ => rfl, rfl⟩
  refine ⟨fun g => ?_, fun g => ?_, fun g => ?_, fun g hg => ?_, fun g g' hg hg' => ?_, fun g hg w => ?_⟩
  · rw [(hcase g).2.2.2, bump_apply]
    have href := h.ref g
    by_cases hg : g = f
    · subst hg
      rw [if_pos rfl, if_pos rfl]
      have hs : (k.updFile g F).slots = k.slots := rfl
      rw [hs]
      omega
    · rw [if_neg hg, if_neg hg, Int.add_zero]
      exact href
  · rw [(hcase g).2.2.2]
    split
    · exact hr
    · exact h.nonneg g
  · rw [Kernel.file_upd]
    split
    · exact hfree
    · exact h.free g
  · have hg' := (hcase g).1.1 hg
    rw [(hcase g).2.1, (hcase g).2.2.1 hg']
    exact h.opened g hg'
  · have h1 := (hcase g).1.1 hg
    have h2 := (hcase g').1.1 hg'
    rw [(hcase g).2.1, (hcase g').2.1, (hcase g).2.2.1 h1, (hcase g').2.2.1 h2]
    exact h.uniq g g' h1 h2
  · have h1 := (hcase g).1.1 hg
    rw [(hcase g).2.1]
    intro hw
    obtain ⟨g', ht', hp', hw'⟩ := h.other g h1 w hw
    exact ⟨g', (hcase g').1.2 ht', (hcase g').2.1.trans hp', ((hcase g').2.2.1 ht').trans hw'⟩

/-- `ref` of a file structure changes, or a field that says nothing about pipes and inodes. -/
theorem KInv.updFile (h : KInv K k A pg B x b) (ht : (F (k.file f)).type = (k.file f).type)
    (hp : (F (k.file f)).pipe = (k.file f).pipe) (hw : (F (k.file f)).writable = (k.file f).writable)
    (hip : (F (k.file f)).ip = (k.file f).ip) (hr : 0 ≤ (F (k.file f)).ref)
    (hfree : (F (k.file f)).ref = 0 → (k.file f).type = .FD_NONE) :
    KInv K (k.updFile f F) A pg B (bump x f ((F (k.file f)).ref - (k.file f).ref)) b := by
  have hnames : (k.updFile f F).names = k.names := by
    funext jp
    have hn := Kernel.names_upd (k := k) (f := f) (F := F) jp
    have hi : (F (k.file f)).inode = (k.file f).inode := by
      unfold File.inode
      rw [ht, hip]
    rw [hi] at hn
    exact Nat.add_right_cancel hn
  refine ⟨?_, h.file.upd (by rw [ht]) hp (fun _ => hw) hr (fun hz => ht.trans (hfree hz)), ?_, h.closed⟩
  · rw [Kernel.pipes_upd (by rw [ht]) hp]
    exact h.mem.same rfl fun j => Proc.SameMem.refl _
  · rw [hnames]
    exact h.fs

/-- A new file structure takes over the reference to an inode. -/
theorem KInv.nameInode (h : KInv K k A pg B x (b.addRef ip 1)) (ht : (k.file f).type = .FD_NONE)
    (hr : (k.file f).ref ≠ 0) (hi : (F (k.file f)).inode = some ip) (hp : (F (k.file f)).pipe = (k.file f).pipe)
    (href : (F (k.file f)).ref = (k.file f).ref) : KInv K (k.updFile f F) A pg B x b := by
  have hnp : (F (k.file f)).type ≠ .FD_PIPE := by
    intro hc
    unfold File.inode at hi
    rw [hc] at hi
    cases hi
  have hpipe : (F (k.file f)).type = .FD_PIPE ↔ (k.file f).type = .FD_PIPE :=
    ⟨fun hc => absurd hc hnp, fun hc => nomatch ht.symm.trans hc⟩
  have hnames : ∀ jp, (k.updFile f F).names jp = k.names jp + if some ip = some jp then 1 else 0 := by
    intro jp
    have hn := Kernel.names_upd (k := k) (f := f) (F := F) jp
    have hi0 : (k.file f).inode = none := by
      unfold File.inode
      rw [ht]
    rw [hi, hi0] at hn
    simpa using hn
  refine ⟨?_, ?_, ?_, h.closed⟩
  · rw [Kernel.pipes_upd hpipe hp]
    exact h.mem.same rfl fun j => Proc.SameMem.refl _
  · have h' := h.file.upd (f := f) hpipe hp (fun hc => nomatch ht.symm.trans hc) (href ▸ h.file.nonneg f)
      fun hz => absurd (href.symm.trans hz) hr
    rwa [href, Int.sub_self, bump_zero] at h'
  · rw [Books.above_of_names hnames]
    exact h.fs

end upd

theorem Kernel.filealloc_spec {H : Prop} : wpm Kernel.filealloc (fun r k' => (r = none ∧ k' = k) ∨
    ∃ f, r = some f ∧ (k.file f).ref = 0 ∧ k' = k.updFile f fun y => { y with ref := 1 }) P H k := by
  unfold Kernel.filealloc
  rw [wpm_bind, wpm_get]
  split
  · exact Or.inl ⟨rfl, rfl⟩
  · rename_i f hf
    have hzero := List.find?_some hf
    simp only [decide_eq_true_eq] at hzero
    exact Or.inr ⟨f, rfl, hzero, rfl⟩

theorem KInv.filealloc (h : KInv K k A pg B x b) (hz : (k.file f).ref = 0) :
    KInv K (k.updFile f fun y => { y with ref := 1 }) A pg B (bump x f 1) b := by
  have h' := h.updFile (f := f) (F := fun y => { y with ref := 1 }) rfl rfl rfl rfl
    (by dsimp only; omega) (by dsimp only; omega)
  rwa [hz] at h'

theorem Kernel.filedup_spec {H : Prop} (h : KInv K k A pg B x b) (hpos : 0 < (k.file f).ref) :
    wpm (Kernel.filedup f) (fun _ k' => KInv K k' A pg B (bump x f 1) b ∧
      k' = k.updFile f fun y => { y with ref := y.ref + 1 }) P H k := by
  unfold Kernel.filedup
  rw [wpm_bind, wpm_get]
  split
  · omega
  · have h' := h.updFile (f := f) (F := fun y => { y with ref := y.ref + 1 }) rfl rfl rfl rfl
      (by dsimp only; omega) (by dsimp only; omega)
    rw [show (k.file f).ref + 1 - (k.file f).ref = 1 by omega] at h'
    exact ⟨h', rfl⟩

/-! ## `fileclose` -/

/-- The last reference to `f` is gone, and its end of a pipe is closed. -/
theorem FileInv.drop (h : FileInv k x) (hone : (k.file f).ref = 1)
    (hfile : ∀ g, k'.file g = if g = f then (k.file f).dropped else k.file g)
    (hend : ∀ pi w, k'.pipeEnd pi w = if (k.file f).type = .FD_PIPE ∧ pi = (k.file f).pipe ∧
      w = (k.file f).writable then false else k.pipeEnd pi w) (hslots : k'.slots = k.slots) :
    FileInv k' (bump x f (-1)) := by
  -- a file that is still a pipe is another one than `f`
  have hpipe : ∀ g, (k'.file g).type = .FD_PIPE → g ≠ f ∧ k'.file g = k.file g := by
    intro g ht
    by_cases hg : g = f
    · rw [hfile, if_pos hg] at ht
      cases ht
    · exact ⟨hg, by rw [hfile, if_neg hg]⟩
  refine ⟨fun g => ?_, fun g => ?_, fun g => ?_, fun g ht => ?_, fun g g' ht ht' => ?_, fun g ht w hw => ?_⟩
  · rw [hslots, bump_apply, hfile]
    have href := h.ref g
    by_cases hg : g = f
    · subst hg
      rw [if_pos rfl, if_pos rfl, show (k.file g).dropped.ref = 0 from rfl]
      omega
    · rw [if_neg hg, if_neg hg, href]
      omega
  · rw [hfile]
    split
    · exact Int.le_refl 0
    · exact h.nonneg g
  · rw [hfile]
    split
    · exact fun _ => rfl
    · exact h.free g
  · obtain ⟨hg, heq⟩ := hpipe g ht
    rw [heq] at ht ⊢
    rw [hend, if_neg]
    · exact h.opened g ht
    · rintro ⟨hf, hpi, hw⟩
      exact hg (h.uniq g f ht hf hpi hw)
  · obtain ⟨-, heq⟩ := hpipe g ht
    obtain ⟨-, heq'⟩ := hpipe g' ht'
    rw [heq] at ht
    rw [heq'] at ht'
    rw [heq, heq']
    exact h.uniq g g' ht ht'
  · obtain ⟨-, heq⟩ := hpipe g ht
    rw [heq] at ht hw ⊢
    rw [hend] at hw
    split at hw
    · cases hw
    · rename_i hn
      obtain ⟨g', h1, h2, h3⟩ := h.other g ht w hw
      have hg' : g' ≠ f := by
        rintro rfl
        exact hn ⟨h1, h2.symm, h3.symm⟩
      exact ⟨g', by rw [hfile, if_neg hg']; exact ⟨h1, h2, h3⟩⟩

/-- No pipe dies with a file that is no pipe, or with the first of two ends. -/
theorem Kernel.pipes_drop_other (h : FileInv k x)
    (hfile : ∀ g, k'.file g = if g = f then (k.file f).dropped else k.file g)
    (ho : (k.file f).type = .FD_PIPE → k.pipeEnd (k.file f).pipe (!(k.file f).writable) = true) :
    k'.pipes = k.pipes := by
  ext pi
  rw [mem_pipes, mem_pipes]
  constructor
  · rintro ⟨g, ht, hpi⟩
    rw [hfile] at ht hpi
    split at ht
    · cases ht
    · rename_i hg
      rw [if_neg hg] at hpi
      exact ⟨g, ht, hpi⟩
  · rintro ⟨g, ht, hpi⟩
    by_cases hg : g = f
    · subst hg
      obtain ⟨g', h1, h2, h3⟩ := h.other g ht _ (ho ht)
      have hne : g' ≠ g := by
        rintro rfl
        simp at h3
      exact ⟨g', by rw [hfile, if_neg hne]; exact ⟨h1, h2.trans hpi⟩⟩
    · exact ⟨g, by rw [hfile, if_neg hg]; exact ⟨ht, hpi⟩⟩

/-- The pipe dies with its second end. -/
theorem Kernel.pipes_drop_last (h : FileInv k x) (ht : (k.file f).type = .FD_PIPE)
    (hfile : ∀ g, k'.file g = if g = f then (k.file f).dropped else k.file g)
    (ho : k.pipeEnd (k.file f).pipe (!(k.file f).writable) = false) :
    k.pipes.val = (k.file f).pipe ::ₘ k'.pipes.val := by
  have hnot : (k.file f).pipe ∉ k'.pipes := by
    rw [mem_pipes]
    rintro ⟨g, htg, hpi⟩
    rw [hfile] at htg hpi
    split at htg
    · cases htg
    · rename_i hg
      rw [if_neg hg] at hpi
      have hopen := h.opened g htg
      rw [hpi] at hopen
      by_cases hw : (k.file g).writable = (k.file f).writable
      · exact hg (h.uniq g f htg ht hpi hw)
      · have hw' : (k.file g).writable = !(k.file f).writable := by
          cases hgw : (k.file g).writable <;> cases hfw : (k.file f).writable <;> simp_all
        rw [hw', ho] at hopen
        cases hopen
  rw [← Finset.insert_val_of_notMem hnot]
  congr 1
  ext pi
  rw [Finset.mem_insert, mem_pipes, mem_pipes]
  constructor
  · rintro ⟨g, htg, hpi⟩
    by_cases hg : g = f
    · subst hg
      exact Or.inl hpi.symm
    · exact Or.inr ⟨g, by rw [hfile, if_neg hg]; exact ⟨htg, hpi⟩⟩
  · rintro (rfl | ⟨g, htg, hpi⟩)
    · exact ⟨f, ht, rfl⟩
    · rw [hfile] at htg hpi
      split at htg
      · cases htg
      · rename_i hg
        rw [if_neg hg] at hpi
        exact ⟨g, htg, hpi⟩

theorem Kernel.wakeup_spec : wpm (Kernel.wakeup me) (fun _ k' => k' = k) P True k := by
  have hloop : ∀ is : List (Fin NPROC), wpm (Kernel.wakeupLocks me is) (fun _ k' => k' = k) P True k := by
    intro is
    induction is with
    | nil => rfl
    | cons i is ih =>
      refine wpm_seq (R := fun _ k' => k' = k) ?_ ?_
      · split
        · refine wpm_seq (acquire_spec (Or.inr trivial)) ?_
          rintro _ k₁ ⟨hl, rfl⟩
          exact release_back hl
        · rfl
      · rintro _ k' rfl
        exact ih
  exact hloop _

/-- The pipe with one end closed. -/
def Pipe.close (p : Pipe) (w : Bool) : Pipe :=
  if w then { p with writeopen := false } else { p with readopen := false }

/-- `pipeclose` after the flag has been cleared. -/
theorem Kernel.pipeclose_eq (pi : Nat) (w : Bool) : Kernel.pipeclose K me pi w = (do
    (do
      Kernel.modifyPipe pi fun p => p.close w
      Kernel.wakeup me)
    let k ← get
    if !(k.pipe pi).readopen && !(k.pipe pi).writeopen then Kernel.vm (kfree K pi) else pure ()) := by
  unfold Kernel.pipeclose Pipe.close
  cases w <;> rfl

theorem Kernel.pipeclose_spec {pi : Nat} {w : Bool} {F : Multiset Nat} (ho : Owns K k.mem (pi ::ₘ F)) :
    wpm (Kernel.pipeclose K me pi w) (fun _ k' => ∃ m,
      k' = { k with pipe := update k.pipe pi ((k.pipe pi).close w), mem := m } ∧
      (k.pipeEnd pi (!w) = true ∧ m = k.mem ∨ k.pipeEnd pi (!w) = false ∧ Moves k.mem (pi ::ₘ F) m F))
      P True k := by
  rw [Kernel.pipeclose_eq]
  refine wpm_seq (R := fun _ k' => k' = { k with pipe := update k.pipe pi ((k.pipe pi).close w) }) ?_ ?_
  · exact wpm_seq (R := fun _ k' => k' = _) rfl fun _ k₁ hk₁ => hk₁ ▸ Kernel.wakeup_spec
  · rintro _ k₁ rfl
    rw [wpm_bind, wpm_get]
    have hclosed : (!((update k.pipe pi ((k.pipe pi).close w)) pi).readopen &&
        !((update k.pipe pi ((k.pipe pi).close w)) pi).writeopen) = !k.pipeEnd pi (!w) := by
      rw [update_self]
      unfold Pipe.close Kernel.pipeEnd
      cases w <;> simp
    dsimp only
    rw [hclosed]
    cases hend : k.pipeEnd pi (!w) with
    | true => exact ⟨k.mem, rfl, Or.inl ⟨rfl, rfl⟩⟩
    | false =>
      refine wpm_vm.2 (wpm_mono (wpm_of_wp (kfree_spec ho)) ?_)
      rintro _ m ⟨hm, -, -⟩
      exact ⟨m, rfl, Or.inr ⟨rfl, hm⟩⟩

theorem Kernel.pipeEnd_close {pi qi : Nat} {w v : Bool} {m : Mem} {fl : Fin NFILE → File} :
    ({ k with pipe := update k.pipe pi ((k.pipe pi).close w), mem := m, file := fl }).pipeEnd qi v =
      if qi = pi ∧ v = w then false else k.pipeEnd qi v := by
  by_cases hq : qi = pi
  · subst hq
    unfold Kernel.pipeEnd
    dsimp only
    rw [update_self]
    unfold Pipe.close
    cases w <;> cases v <;> simp
  · have hn : ¬ (qi = pi ∧ v = w) := fun h => hq h.1
    rw [if_neg hn]
    unfold Kernel.pipeEnd
    dsimp only
    rw [update_of_ne hq]

theorem Kernel.wpm_fsys {α : Type} {y : Prog Fs α} {R : α → Fs → Prop} {Q : α → Kernel → Prop}
    (hP : ∀ m ∈ Fs.panics, P m) (hy : wpm y R (· ∈ Fs.panics) True k.fs)
    (hQ : ∀ a s, R a s → Q a { k with fs := s }) : wpm (Kernel.fsys y) Q P True k :=
  (wpm_zoom ..).2 (wpm_weaken hy hQ hP)

/-- A reference to an inode is dropped in an operation of its own. -/
theorem Kernel.iputFile_spec (hP : ∀ m ∈ Fs.panics, P m) {c : Books} (h : Fs.Inv k.fs (c.addRef ip 1)) :
    wpm (Kernel.iputFile (some ip)) (fun _ k' => ∃ s, k' = { k with fs := s } ∧ Fs.Inv s c) P True k := by
  refine Kernel.wpm_fsys hP (R := fun _ s => Fs.Inv s c) ?_ fun _ s hs => ⟨s, rfl, hs⟩
  refine wpm_seq (Fs.beginOp_spec h) fun _ s₁ h₁ => ?_
  exact wpm_seq (Fs.iput_spec (b := c.addOps 1) h₁) fun _ s₂ h₂ => Fs.endOp_spec h₂

/-- The names that a file structure loses when it is closed. -/
theorem Kernel.names_drop (hproc : k'.proc = k.proc)
    (hfile : ∀ g, k'.file g = if g = f then (k.file f).dropped else k.file g)
    (jp : Fin NINODE) : k.names jp = k'.names jp + if (k.file f).inode = some jp then 1 else 0 := by
  have hinodes : k'.inodes = update k.inodes f none := by
    funext g
    unfold Kernel.inodes
    rw [hfile]
    by_cases hg : g = f
    · subst hg
      rw [if_pos rfl, update_self]
      rfl
    · rw [if_neg hg, update_of_ne hg]
  have hcwds : k'.cwds = k.cwds := by
    unfold Kernel.cwds
    rw [hproc]
  have hcount := tally_update k.inodes f none jp
  rw [← hinodes, show k.inodes f = (k.file f).inode from rfl] at hcount
  unfold Kernel.names
  rw [hcwds]
  simp only [reduceCtorEq, if_false] at hcount
  omega

/-- A file structure that is no pipe has been closed; the file system has dropped its inode. -/
theorem KInv.dropFile (h : KInv K k A pg B x b) (hone : (k.file f).ref = 1) (ht : (k.file f).type ≠ .FD_PIPE)
    {s : Fs} (hs : Fs.Inv s (b.above (k.updFile f File.dropped).names)) :
    KInv K { k.updFile f File.dropped with fs := s } A pg B (bump x f (-1)) b ∧
      (k.updFile f File.dropped).pipes = k.pipes := by
  have hfile := Kernel.file_upd (k := k) (f := f) File.dropped
  have hp : (k.updFile f File.dropped).pipes = k.pipes :=
    Kernel.pipes_drop_other h.file hfile fun hpipe => absurd hpipe ht
  refine ⟨⟨?_, ?_, hs, h.closed⟩, hp⟩
  · exact (hp.symm ▸ h.mem : MemInv K k A pg ((k.updFile f File.dropped).pipes.val + B)).same rfl
      fun j => Proc.SameMem.refl _
  · refine h.file.drop hone hfile (fun pi w => ?_) rfl
    rw [if_neg (fun hc => ht hc.1)]
    rfl

/-- An end of a pipe has been closed; the page is freed with the second one. -/
theorem KInv.dropPipe (h : KInv K k A pg B x b) (hone : (k.file f).ref = 1) (ht : (k.file f).type = .FD_PIPE)
    {m : Mem} {F : Multiset Nat} (hF : k.pipes.val = (k.file f).pipe ::ₘ F)
    (hm : k.pipeEnd (k.file f).pipe (!(k.file f).writable) = true ∧ m = k.mem ∨
      k.pipeEnd (k.file f).pipe (!(k.file f).writable) = false ∧
        Moves k.mem ((k.file f).pipe ::ₘ F) m F)
    (hk : k' = { k.updFile f File.dropped with
      pipe := update k.pipe (k.file f).pipe ((k.pipe (k.file f).pipe).close (k.file f).writable),
      mem := m }) :
    KInv K k' A pg B (bump x f (-1)) b ∧ Moves k.mem k.pipes.val k'.mem k'.pipes.val := by
  have hfile : ∀ g, k'.file g = if g = f then (k.file f).dropped else k.file g := by
    rw [hk]
    exact Kernel.file_upd File.dropped
  have hproc : k'.proc = k.proc := by rw [hk]; rfl
  have hmem : k'.mem = m := by rw [hk]
  have hmoves : Moves k.mem k.pipes.val k'.mem k'.pipes.val := by
    rw [hmem]
    rcases hm with ⟨ho, rfl⟩ | ⟨ho, hm⟩
    · rw [Kernel.pipes_drop_other h.file hfile fun _ => ho]
      exact Moves.refl _ _
    · have hlast := Kernel.pipes_drop_last h.file ht hfile ho
      rw [hF] at hlast
      rw [hF, ← (Multiset.cons_inj_right _).1 hlast]
      exact hm
  have hnames : k'.names = k.names := by
    funext jp
    have hd := Kernel.names_drop hproc hfile jp
    have hi : (k.file f).inode = none := by
      unfold File.inode
      rw [ht]
    rw [hi] at hd
    simpa using hd.symm
  refine ⟨⟨?_, ?_, ?_, ?_⟩, hmoves⟩
  · exact h.mem.rest rfl rfl hmoves fun j => hproc ▸ Proc.SameMem.refl _
  · refine h.file.drop hone hfile (fun pi w => ?_) ?_
    · have he : k'.pipeEnd pi w = if pi = (k.file f).pipe ∧ w = (k.file f).writable then false
          else k.pipeEnd pi w := by
        rw [hk]
        exact Kernel.pipeEnd_close
      rw [he]
      simp only [ht, true_and]
    · unfold Kernel.slots
      rw [hproc]
  · rw [hnames, hk]
    exact h.fs
  · rw [hproc]
    exact h.closed

/-- What `fileclose` does to the file table. -/
def Kernel.Closes (k : Kernel) (f : Fin NFILE) (k' : Kernel) : Prop :=
  ∃ F : File → File, k'.file = (k.updFile f F).file ∧
    ((F (k.file f)).type = (k.file f).type ∧ (F (k.file f)).pipe = (k.file f).pipe ∨ (F (k.file f)).ref = 0)

theorem Kernel.closes_dropped (hfile : k'.file = (k.updFile f File.dropped).file) : k.Closes f k' :=
  ⟨File.dropped, hfile, Or.inr rfl⟩

/-- **`fileclose`** drops a reference, and with the last one the inode or the end of the pipe. -/
theorem Kernel.fileclose_spec (hP : ∀ m ∈ Fs.panics, P m) (h : KInv K k A pg B x b)
    (hpos : 0 < (k.file f).ref) :
    wpm (Kernel.fileclose K me f) (fun _ k' => KInv K k' A pg B (bump x f (-1)) b ∧ k'.proc = k.proc ∧
      Moves k.mem k.pipes.val k'.mem k'.pipes.val ∧ k.Closes f k') P True k := by
  unfold Kernel.fileclose
  rw [wpm_bind, wpm_get, if_neg (by omega)]
  by_cases hmore : (k.file f).ref - 1 > 0
  · rw [if_pos hmore]
    have h' := h.updFile (f := f) (F := fun y => { y with ref := y.ref - 1 }) rfl rfl rfl rfl
      (by dsimp only; omega) (by dsimp only; omega)
    rw [show (k.file f).ref - 1 - (k.file f).ref = -1 by omega] at h'
    have hp : (k.updFile f fun y => { y with ref := y.ref - 1 }).pipes = k.pipes := Kernel.pipes_upd Iff.rfl rfl
    exact ⟨h', rfl, hp.symm ▸ Moves.refl _ _, _, rfl, Or.inl ⟨rfl, rfl⟩⟩
  · rw [if_neg hmore]
    have hone : (k.file f).ref = 1 := by omega
    have hnames := Kernel.names_drop (f := f) (show (k.updFile f File.dropped).proc = k.proc from rfl)
      (Kernel.file_upd File.dropped)
    -- the inode of a file is dropped in an operation of its own
    have hinode : (k.file f).type = .FD_INODE ∨ (k.file f).type = .FD_DEVICE →
        wpm (Kernel.iputFile (k.file f).ip) (fun _ k' => KInv K k' A pg B (bump x f (-1)) b ∧
          k'.proc = k.proc ∧ Moves k.mem k.pipes.val k'.mem k'.pipes.val ∧ k.Closes f k') P True
          (k.updFile f File.dropped) := by
      intro ht
      have hnp : (k.file f).type ≠ .FD_PIPE := by
        rcases ht with ht | ht <;> rw [ht] <;> decide
      cases hip : (k.file f).ip with
      | none => exact hP _ (by decide)
      | some ip =>
        have hi : (k.file f).inode = some ip := by
          unfold File.inode
          rcases ht with ht | ht <;> rw [ht] <;> exact hip
        rw [hi] at hnames
        have hfs := h.fs
        rw [Books.above_of_names hnames, ← Books.above_addRef] at hfs
        refine wpm_mono (Kernel.iputFile_spec hP hfs) ?_
        rintro _ k' ⟨s, rfl, hs⟩
        obtain ⟨hinv, hp⟩ := h.dropFile hone hnp hs
        exact ⟨hinv, rfl, hp.symm ▸ Moves.refl _ _, Kernel.closes_dropped rfl⟩
    refine wpm_seq (R := fun _ k' => k' = k.updFile f File.dropped) rfl ?_
    rintro _ k₁ rfl
    cases ht : (k.file f).type with
    | FD_NONE =>
      have hn : k.names = (k.updFile f File.dropped).names := by
        funext jp
        have hi : (k.file f).inode = none := by
          unfold File.inode
          rw [ht]
        rw [hnames jp, hi]
        simp
      obtain ⟨hinv, hp⟩ := h.dropFile hone (by rw [ht]; decide) (hn ▸ h.fs)
      exact ⟨hinv, rfl, hp.symm ▸ Moves.refl _ _, Kernel.closes_dropped rfl⟩
    | FD_INODE => exact hinode (Or.inl ht)
    | FD_DEVICE => exact hinode (Or.inr ht)
    | FD_PIPE =>
      have hmem : (k.file f).pipe ∈ k.pipes.val := Kernel.mem_pipes.2 ⟨f, ht, rfl⟩
      obtain ⟨F, hF⟩ := Multiset.exists_cons_of_mem hmem
      have ho : Owns K k.mem ((k.file f).pipe ::ₘ F) := hF ▸ h.mem.owns.right.left
      refine wpm_mono (Kernel.pipeclose_spec (k := k.updFile f File.dropped) ho) ?_
      rintro _ k' ⟨m, hk, hm⟩
      obtain ⟨hinv, hmoves⟩ := h.dropPipe hone ht hF hm hk
      exact ⟨hinv, by rw [hk]; rfl, hmoves, Kernel.closes_dropped (by rw [hk])⟩

/-! ## `pipealloc` -/

/-- The two ends of a new pipe. -/
def File.readEnd (x : File) (pi : Nat) : File :=
  { x with type := .FD_PIPE, readable := true, writable := false, pipe := pi }
def File.writeEnd (x : File) (pi : Nat) : File :=
  { x with type := .FD_PIPE, readable := false, writable := true, pipe := pi }

section pipealloc

variable {f0 f1 : Fin NFILE} {pi : Nat}

/-- Two unused file structures become the ends of a new pipe. -/
theorem FileInv.newPipe (h : FileInv k x) (hne : f0 ≠ f1) (h0 : (k.file f0).ref ≠ 0) (h1 : (k.file f1).ref ≠ 0)
    (ht0 : (k.file f0).type = .FD_NONE) (ht1 : (k.file f1).type = .FD_NONE) (hpi : pi ∉ k.pipes)
    (hfile : ∀ g, k'.file g = if g = f1 then (k.file f1).writeEnd pi else
      if g = f0 then (k.file f0).readEnd pi else k.file g)
    (hend : ∀ qi w, k'.pipeEnd qi w = if qi = pi then true else k.pipeEnd qi w)
    (hslots : k'.slots = k.slots) : FileInv k' x := by
  have hf0 : k'.file f0 = (k.file f0).readEnd pi := by rw [hfile, if_neg hne, if_pos rfl]
  have hf1 : k'.file f1 = (k.file f1).writeEnd pi := by rw [hfile, if_pos rfl]
  have hother : ∀ g, g ≠ f0 → g ≠ f1 → k'.file g = k.file g := fun g hg0 hg1 => by
    rw [hfile, if_neg hg1, if_neg hg0]
  have hcase : ∀ g, g = f0 ∨ g = f1 ∨ g ≠ f0 ∧ g ≠ f1 := fun g => by tauto
  -- an old pipe is another one than the new
  have hold : ∀ g, (k.file g).type = .FD_PIPE → (k.file g).pipe ≠ pi := by
    intro g ht hg
    exact hpi (Kernel.mem_pipes.2 ⟨g, ht, hg⟩)
  refine ⟨fun g => ?_, fun g => ?_, fun g => ?_, fun g ht => ?_, fun g g' ht ht' hp hw => ?_, fun g ht w hw => ?_⟩
  · rw [hslots, ← h.ref g]
    rcases hcase g with rfl | rfl | ⟨hg0, hg1⟩
    · rw [hf0]; rfl
    · rw [hf1]; rfl
    · rw [hother g hg0 hg1]
  · rcases hcase g with rfl | rfl | ⟨hg0, hg1⟩
    · rw [hf0]; exact h.nonneg g
    · rw [hf1]; exact h.nonneg g
    · rw [hother g hg0 hg1]; exact h.nonneg g
  · rcases hcase g with rfl | rfl | ⟨hg0, hg1⟩
    · rw [hf0]; exact fun hz => absurd hz h0
    · rw [hf1]; exact fun hz => absurd hz h1
    · rw [hother g hg0 hg1]; exact h.free g
  · rcases hcase g with rfl | rfl | ⟨hg0, hg1⟩
    · rw [hf0, hend]; exact if_pos rfl
    · rw [hf1, hend]; exact if_pos rfl
    · rw [hother g hg0 hg1] at ht ⊢
      rw [hend, if_neg (hold g ht)]
      exact h.opened g ht
  · rcases hcase g with rfl | rfl | ⟨hg0, hg1⟩ <;> rcases hcase g' with rfl | rfl | ⟨hg0', hg1'⟩
    · rfl
    · rw [hf0, hf1] at hw
      cases hw
    · rw [hother g' hg0' hg1'] at hp ht'
      rw [hf0] at hp
      exact absurd hp.symm (hold g' ht')
    · rw [hf0, hf1] at hw
      cases hw
    · rfl
    · rw [hother g' hg0' hg1'] at hp ht'
      rw [hf1] at hp
      exact absurd hp.symm (hold g' ht')
    · rw [hother g hg0 hg1] at hp ht
      rw [hf0] at hp
      exact absurd hp (hold g ht)
    · rw [hother g hg0 hg1] at hp ht
      rw [hf1] at hp
      exact absurd hp (hold g ht)
    · rw [hother g hg0 hg1] at hp ht hw
      rw [hother g' hg0' hg1'] at hp ht' hw
      exact h.uniq g g' ht ht' hp hw
  · by_cases hg : (k'.file g).pipe = pi
    · rw [hg]
      cases w with
      | false => exact ⟨f0, by rw [hf0]; exact ⟨rfl, rfl, rfl⟩⟩
      | true => exact ⟨f1, by rw [hf1]; exact ⟨rfl, rfl, rfl⟩⟩
    · have hg0 : g ≠ f0 := by
        rintro rfl
        exact hg (by rw [hf0]; rfl)
      have hg1 : g ≠ f1 := by
        rintro rfl
        exact hg (by rw [hf1]; rfl)
      rw [hother g hg0 hg1] at ht hw hg ⊢
      rw [hend, if_neg hg] at hw
      obtain ⟨g', ht', hp', hw'⟩ := h.other g ht w hw
      have hg0' : g' ≠ f0 := by
        rintro rfl
        exact nomatch ht0.symm.trans ht'
      have hg1' : g' ≠ f1 := by
        rintro rfl
        exact nomatch ht1.symm.trans ht'
      exact ⟨g', by rw [hother g' hg0' hg1']; exact ⟨ht', hp', hw'⟩⟩

theorem Kernel.pipes_newPipe (hne : f0 ≠ f1) (ht0 : (k.file f0).type = .FD_NONE)
    (ht1 : (k.file f1).type = .FD_NONE) (hpi : pi ∉ k.pipes)
    (hfile : ∀ g, k'.file g = if g = f1 then (k.file f1).writeEnd pi else
      if g = f0 then (k.file f0).readEnd pi else k.file g) : k'.pipes.val = pi ::ₘ k.pipes.val := by
  rw [← Finset.insert_val_of_notMem hpi]
  congr 1
  ext qi
  rw [Finset.mem_insert, mem_pipes, mem_pipes]
  constructor
  · rintro ⟨g, ht, hq⟩
    rw [hfile] at ht hq
    split at ht
    · rename_i hg
      rw [if_pos hg] at hq
      exact Or.inl hq.symm
    · rename_i hg1
      rw [if_neg hg1] at hq
      split at ht
      · rename_i hg
        rw [if_pos hg] at hq
        exact Or.inl hq.symm
      · rename_i hg0
        rw [if_neg hg0] at hq
        exact Or.inr ⟨g, ht, hq⟩
  · rintro (rfl | ⟨g, ht, hq⟩)
    · exact ⟨f1, by rw [hfile, if_pos rfl]; exact ⟨rfl, rfl⟩⟩
    · have hg0 : g ≠ f0 := by
        rintro rfl
        exact nomatch ht0.symm.trans ht
      have hg1 : g ≠ f1 := by
        rintro rfl
        exact nomatch ht1.symm.trans ht
      exact ⟨g, by rw [hfile, if_neg hg1, if_neg hg0]; exact ⟨ht, hq⟩⟩

theorem Kernel.names_newPipe (hproc : k'.proc = k.proc) (ht0 : (k.file f0).type = .FD_NONE)
    (ht1 : (k.file f1).type = .FD_NONE)
    (hfile : ∀ g, k'.file g = if g = f1 then (k.file f1).writeEnd pi else
      if g = f0 then (k.file f0).readEnd pi else k.file g) : k'.names = k.names := by
  have hinodes : k'.inodes = k.inodes := by
    funext g
    unfold Kernel.inodes File.inode
    rw [hfile]
    by_cases hg1 : g = f1
    · rw [if_pos hg1, hg1, ht1]
      rfl
    · rw [if_neg hg1]
      by_cases hg0 : g = f0
      · rw [if_pos hg0, hg0, ht0]
        rfl
      · rw [if_neg hg0]
  unfold Kernel.names Kernel.cwds
  rw [hinodes, hproc]

/-- A page becomes a pipe with two ends. -/
theorem KInv.newPipe {m : Mem} (h : KInv K k A pg B x b) (hne : f0 ≠ f1) (h0 : (k.file f0).ref ≠ 0)
    (h1 : (k.file f1).ref ≠ 0) (ht0 : (k.file f0).type = .FD_NONE) (ht1 : (k.file f1).type = .FD_NONE)
    (hm : Moves k.mem 0 m {pi})
    (hk : k' = ((({ k with mem := m, pipe := update k.pipe pi ⟨true, true⟩ } : Kernel).updFile f0
      fun y => y.readEnd pi).updFile f1 fun y => y.writeEnd pi)) :
    KInv K k' A pg B x b ∧ Moves k.mem k.pipes.val k'.mem k'.pipes.val := by
  have hfree : pi ∈ (↑k.mem.freelist : Multiset Nat) := by
    have hc := hm.conserve
    rw [zero_add] at hc
    rw [← hc]
    exact Multiset.mem_add.2 (Or.inl (Multiset.mem_singleton_self pi))
  have hpi : pi ∉ k.pipes := by
    intro hmem
    have hnd := h.mem.owns.nodup
    refine Multiset.disjoint_left.1 (Multiset.nodup_add.1 hnd).2.2 ?_ hfree
    exact Multiset.mem_add.2 (Or.inr (Multiset.mem_add.2 (Or.inl hmem)))
  have hfile : ∀ g, k'.file g = if g = f1 then (k.file f1).writeEnd pi else
      if g = f0 then (k.file f0).readEnd pi else k.file g := by
    intro g
    rw [hk, Kernel.file_upd, Kernel.file_upd, if_neg hne.symm, Kernel.file_upd]
  have hproc : k'.proc = k.proc := by rw [hk]; rfl
  have hmem : k'.mem = m := by rw [hk]; rfl
  have hpipes := Kernel.pipes_newPipe hne ht0 ht1 hpi hfile
  have hmoves : Moves k.mem k.pipes.val k'.mem k'.pipes.val := by
    rw [hpipes, hmem]
    exact (hm.add k.pipes.val).congr (zero_add _) (Multiset.singleton_add _ _)
  refine ⟨⟨?_, ?_, ?_, ?_⟩, hmoves⟩
  · exact h.mem.rest rfl rfl hmoves fun j => hproc ▸ Proc.SameMem.refl _
  · refine h.file.newPipe hne h0 h1 ht0 ht1 hpi hfile (fun qi w => ?_) ?_
    · have hp : k'.pipe = update k.pipe pi ⟨true, true⟩ := by rw [hk]; rfl
      unfold Kernel.pipeEnd
      rw [hp]
      by_cases hq : qi = pi
      · subst hq
        rw [update_self, if_pos rfl]
        cases w <;> rfl
      · rw [update_of_ne hq, if_neg hq]
    · unfold Kernel.slots
      rw [hproc]
  · rw [Kernel.names_newPipe hproc ht0 ht1 hfile, hk]
    exact h.fs
  · rw [hproc]
    exact h.closed

theorem Kernel.kalloc_page {H : Prop} : wpm (Kernel.vm kalloc) (fun r k' => (r = none ∧ k' = k) ∨
    ∃ p m, r = some p ∧ k' = { k with mem := m } ∧ Moves k.mem 0 m {p}) P H k := by
  refine Kernel.wpm_vm.2 (wpm_mono (wpm_of_wp kalloc_spec) ?_)
  rintro r s' (⟨rfl, -, rfl⟩ | ⟨p, rs, rfl, hs, rfl⟩)
  · exact Or.inl ⟨rfl, rfl⟩
  · exact Or.inr ⟨p, _, rfl, rfl, kalloc_moves hs 0 5⟩

/-- The references to a file that no one has touched. -/
theorem FileInv.ref_eq {x' : Fin NFILE → Int} (h : FileInv k x) (h' : FileInv k' x') (hproc : k'.proc = k.proc)
    (hx : x' f = x f) : (k'.file f).ref = (k.file f).ref := by
  have hslots : k'.slots = k.slots := by
    unfold Kernel.slots
    rw [hproc]
  rw [h.ref, h'.ref, hx, hslots]

/-- **`pipealloc`** makes a pipe whose two ends the call holds, or gives everything back. -/
theorem Kernel.pipealloc_spec (hP : ∀ m ∈ Fs.panics, P m) (h : KInv K k A pg B x b) :
    wpm (Kernel.pipealloc K me) (fun r k' => k'.proc = k.proc ∧
      Moves k.mem k.pipes.val k'.mem k'.pipes.val ∧
      (r = none ∧ KInv K k' A pg B x b ∨ ∃ f0 f1, r = some (f0, f1) ∧
        KInv K k' A pg B (bump (bump x f0 1) f1 1) b)) P True k := by
  unfold Kernel.pipealloc
  refine wpm_seq Kernel.filealloc_spec ?_
  rintro r k₁ (⟨rfl, rfl⟩ | ⟨f0, rfl, hz0, hk₁⟩)
  · exact ⟨rfl, Moves.refl _ _, Or.inl ⟨rfl, h⟩⟩
  have h₁ : KInv K k₁ A pg B (bump x f0 1) b := hk₁ ▸ h.filealloc hz0
  have hp₁ : k₁.pipes = k.pipes := hk₁ ▸ Kernel.pipes_upd Iff.rfl rfl
  have hf0 : (k₁.file f0).ref = 1 ∧ (k₁.file f0).type = .FD_NONE := by
    rw [hk₁, Kernel.file_upd, if_pos rfl]
    exact ⟨rfl, h.file.free f0 hz0⟩
  have hm₁ : k₁.mem = k.mem := by rw [hk₁]; rfl
  have hpr₁ : k₁.proc = k.proc := by rw [hk₁]; rfl
  refine wpm_seq Kernel.filealloc_spec ?_
  rintro r k₂ (⟨rfl, rfl⟩ | ⟨f1, rfl, hz1, hk₂⟩)
  · refine wpm_seq (Kernel.fileclose_spec hP h₁ (by rw [hf0.1]; decide)) ?_
    rintro _ k₃ ⟨h₃, hpr, hm, -⟩
    rw [bump_bump, show (1 : Int) + -1 = 0 by decide, bump_zero] at h₃
    exact ⟨hpr.trans hpr₁, by rw [← hm₁, ← hp₁]; exact hm, Or.inl ⟨rfl, h₃⟩⟩
  have hne : f0 ≠ f1 := by
    rintro rfl
    exact absurd (hz1.symm.trans hf0.1) (by decide)
  have h₂ : KInv K k₂ A pg B (bump (bump x f0 1) f1 1) b := hk₂ ▸ h₁.filealloc hz1
  have hp₂ : k₂.pipes = k.pipes := (hk₂ ▸ Kernel.pipes_upd Iff.rfl rfl : k₂.pipes = k₁.pipes).trans hp₁
  have hm₂ : k₂.mem = k.mem := by rw [hk₂, ← hm₁]; rfl
  have hpr₂ : k₂.proc = k.proc := by rw [hk₂, ← hpr₁]; rfl
  have hg1 : (k₂.file f1).ref = 1 ∧ (k₂.file f1).type = .FD_NONE := by
    rw [hk₂, Kernel.file_upd, if_pos rfl]
    exact ⟨rfl, h₁.file.free f1 hz1⟩
  have hg0 : (k₂.file f0).ref = 1 ∧ (k₂.file f0).type = .FD_NONE := by
    rw [hk₂, Kernel.file_upd, if_neg hne]
    exact hf0
  refine wpm_seq Kernel.kalloc_page ?_
  rintro r k₃ (⟨rfl, rfl⟩ | ⟨pi, m, rfl, rfl, hm⟩)
  · -- both file structures are closed again
    refine wpm_seq (Kernel.fileclose_spec hP h₂ (by rw [hg0.1]; decide)) ?_
    rintro _ k₄ ⟨h₄, hpr₄, hm₄, -⟩
    have hx : bump (bump (bump x f0 1) f1 1) f0 (-1) = bump x f1 1 := by
      rw [bump_comm, bump_bump, show (1 : Int) + -1 = 0 by decide, bump_zero]
    rw [hx] at h₄
    have hr : (k₄.file f1).ref = 1 := by
      refine (h₂.file.ref_eq h₄.file hpr₄ ?_).trans hg1.1
      simp only [bump_apply, if_neg hne.symm, if_true, Int.add_zero]
    refine wpm_seq (Kernel.fileclose_spec hP h₄ (by rw [hr]; decide)) ?_
    rintro _ k₅ ⟨h₅, hpr₅, hm₅, -⟩
    rw [bump_bump, show (1 : Int) + -1 = 0 by decide, bump_zero] at h₅
    refine ⟨hpr₅.trans (hpr₄.trans hpr₂), ?_, Or.inl ⟨rfl, h₅⟩⟩
    rw [← hm₂, ← hp₂]
    exact hm₄.trans hm₅
  · obtain ⟨h₄, hm₄⟩ := h₂.newPipe hne (by rw [hg0.1]; decide) (by rw [hg1.1]; decide) hg0.2 hg1.2 hm rfl
    refine ⟨hpr₂, ?_, Or.inr ⟨f0, f1, rfl, h₄⟩⟩
    rw [← hm₂, ← hp₂]
    exact hm₄

end pipealloc

end Xv6
