import Xv6.Kernel.Build

/-!
# The arguments of a new program

* `Laid` — strings that lie on the stack, each below the one before it and ended by a NUL.
* `Pushing` — while the arguments are pushed only the stack page of the new image changes.
* `pushArgs_spec` — the strings are laid down, or one of them does not fit.
* `wordAt_wordBytes` — the array of pointers is read back word by word.
-/

namespace Xv6

open Prog

/-! ## Strings on the stack -/

/-- The strings and their addresses, between `sp` and `top`. -/
structure Laid (c : Nat → UInt8) (sp top : Nat) (l : List (List UInt8 × Nat)) : Prop where
  within : ∀ p ∈ l, sp ≤ p.2 ∧ p.2 + (p.1.length + 1) ≤ top
  bytes : ∀ p ∈ l, ∀ j, j < p.1.length + 1 → c (p.2 + j) = (p.1 ++ [0]).getD j 0
  apart : l.Pairwise fun p q => q.2 + (q.1.length + 1) ≤ p.2

section laid

variable {c c' : Nat → UInt8} {sp sp' top : Nat} {l : List (List UInt8 × Nat)} {str : List UInt8}

theorem Laid.nil (c : Nat → UInt8) (sp top : Nat) : Laid c sp top [] :=
  ⟨fun _ h => absurd h List.not_mem_nil, fun _ h => absurd h List.not_mem_nil, List.Pairwise.nil⟩

/-- What is written below the strings leaves them alone. -/
theorem Laid.lower (h : Laid c sp top l) (hle : sp' ≤ sp) (hc : ∀ a, sp ≤ a → a < top → c' a = c a) :
    Laid c' sp' top l := by
  refine ⟨fun p hp => ⟨Nat.le_trans hle (h.within p hp).1, (h.within p hp).2⟩, fun p hp j hj => ?_, h.apart⟩
  have hw := h.within p hp
  rw [hc _ (by omega) (by omega)]
  exact h.bytes p hp j hj

/-- One more string. -/
theorem Laid.push (h : Laid c sp top l) (hsp : sp ≤ top) (hfit : sp' + (str.length + 1) ≤ sp)
    (hc : ∀ a, sp ≤ a → a < top → c' a = c a)
    (hnew : ∀ j, j < str.length + 1 → c' (sp' + j) = (str ++ [0]).getD j 0) :
    Laid c' sp' top (l ++ [(str, sp')]) := by
  have hold : Laid c' sp' top l := h.lower (by omega) hc
  refine ⟨fun p hp => ?_, fun p hp => ?_, ?_⟩
  · rcases List.mem_append.1 hp with hp | hp
    · exact hold.within p hp
    · rw [List.mem_singleton.1 hp]
      exact ⟨Nat.le_refl _, Nat.le_trans hfit hsp⟩
  · rcases List.mem_append.1 hp with hp | hp
    · exact hold.bytes p hp
    · rw [List.mem_singleton.1 hp]
      exact hnew
  · refine List.pairwise_append.2 ⟨h.apart, List.pairwise_singleton _ _, fun p hp q hq => ?_⟩
    rw [List.mem_singleton.1 hq]
    exact Nat.le_trans hfit (h.within p hp).1

end laid

/-- What was pushed fits below `sp`: a subtraction that has wrapped ends above all user memory. -/
theorem Kernel.pushDown_fits {sp n base : Nat} (hsp : sp ≤ MAXVA) (hbase : 0 < base)
    (hlow : base ≤ Kernel.pushDown sp n) (htop : Kernel.pushDown sp n + n ≤ MAXVA) :
    Kernel.pushDown sp n + n ≤ sp ∧ Kernel.pushDown sp n % 16 = 0 := by
  unfold Kernel.pushDown at *
  simp only [MAXVA] at *
  omega

/-! ## The words of an array -/

/-- The 64-bit word at `a`. -/
def wordAt (c : Nat → UInt8) (a : Nat) : Nat := ByteStore.readLE c a 8

theorem Kernel.wordBytes_cons (w : Nat) (ws : List Nat) :
    Kernel.wordBytes (w :: ws) = ((List.range 8).map fun b => UInt8.ofNat (w / 256 ^ b)) ++ Kernel.wordBytes ws := rfl

theorem Kernel.wordBytes_length (ws : List Nat) : (Kernel.wordBytes ws).length = ws.length * 8 := by
  induction ws with
  | nil => rfl
  | cons w ws ih =>
    rw [Kernel.wordBytes_cons, List.length_append, ih, List.length_map, List.length_range, List.length_cons]
    omega

theorem Kernel.wordAt_wordBytes {c : Nat → UInt8} : ∀ (ws : List Nat) (a : Nat), (∀ w ∈ ws, w < 2 ^ 64) →
    (∀ j, j < (Kernel.wordBytes ws).length → c (a + j) = (Kernel.wordBytes ws).getD j 0) →
    ∀ j, j < ws.length → wordAt c (a + 8 * j) = ws.getD j 0
  | [], _, _, _, j, hj => absurd hj (Nat.not_lt_zero j)
  | w :: ws, a, hw, h, j, hj => by
    rw [Kernel.wordBytes_cons, List.length_append, List.length_map, List.length_range] at h
    cases j with
    | zero =>
      have hbytes : ∀ b, b < 8 → c (a + b) = UInt8.ofNat (w / 256 ^ b) := by
        intro b hb
        rw [h b (by omega), List.getD_append _ _ _ _ (by simpa using hb)]
        simp [List.getD, hb]
      have hread := ByteStore.readLE_of_bytes 8 a w hbytes
      rw [Nat.mod_eq_of_lt (by simpa using hw w List.mem_cons_self)] at hread
      exact hread
    | succ j =>
      have htail : ∀ b, b < (Kernel.wordBytes ws).length → c (a + 8 + b) = (Kernel.wordBytes ws).getD b 0 := by
        intro b hb
        have hat := h (8 + b) (by omega)
        rw [List.getD_append_right _ _ _ _ (by simp)] at hat
        rw [Nat.add_assoc, hat]
        simp
      have hrest := Kernel.wordAt_wordBytes ws (a + 8) (fun v hv => hw v (List.mem_cons_of_mem _ hv)) htail j
        (Nat.lt_of_succ_lt_succ hj)
      rw [show a + 8 * (j + 1) = a + 8 + 8 * j by omega, hrest, List.getD_cons_succ]

/-! ## Writing on the stack page -/

section push

variable {K : KernelImage} {k k₀ k₁ : Kernel} {A : Fin NPROC → Option Space} {pg : Fin NPROC → Multiset Nat}
  {B T : Multiset Nat} {x : Fin NFILE → Int} {b : Books} {i : Fin NPROC} {a : Space} {path : List UInt8}
  {n : NewImage} {e : Nat → Nat} {P : String → Prop} {H : Prop}

theorem Image.writable {s : Mem} {pt sz tf us v : Nat} (h : Image (fixedEntries K tf us) s pt sz T e)
    (hv : v < vpns) (hw : Writable (e v)) : v < npages sz := by
  by_contra hn
  rw [h.map.high v (Nat.le_of_not_lt hn) hv] at hw
  exact fixedEntries_not_writable hw

theorem Image.ownPages {s : Mem} {pt sz tf us : Nat} (h : Image (fixedEntries K tf us) s pt sz T e)
    (ho : Owns K s (leafPages e 0 (npages sz) + T)) : OwnPages T e where
  inj v w hv hw hwv hww heq := by
    have hnd := (Multiset.nodup_add.1 ho.left.nodup).1
    exact leafPages_inj hnd ⟨Nat.zero_le v, h.writable hv hwv⟩ ⟨Nat.zero_le w, h.writable hw hww⟩ heq
  table v hv hw hT := ho.frame hT (Multiset.mem_add.2 (Or.inl
    (mem_leafPages.2 ⟨v, Nat.zero_le v, h.writable hv hw, rfl⟩)))

/-- From `k₁` on only the stack page of the image has been written. -/
structure Pushing (k₁ : Kernel) (n : NewImage) (e : Nat → Nat) (k : Kernel) : Prop where
  rest : k = { k₁ with mem := k.mem }
  freelist : k.mem.freelist = k₁.mem.freelist
  frame : ∀ y, y ≠ PTE2PA (e (npages n.sz - 1)) → k.mem.page y = k₁.mem.page y

theorem Pushing.refl (k : Kernel) (n : NewImage) (e : Nat → Nat) : Pushing k n e k := ⟨rfl, rfl, fun _ _ => rfl⟩

theorem Built.owns (h : Built K k₀ A B x b i a path n pg T e k₁) :
    Owns K k₁.mem (leafPages e 0 (npages n.sz) + T) := h.inv.owns_rest

/-- The stack page is one of the image. -/
theorem Built.stack_mem (h : Built K k₀ A B x b i a path n pg T e k₁) :
    PTE2PA (e (npages n.sz - 1)) ∈ leafPages e 0 (npages n.sz) := by
  have := h.two
  exact mem_leafPages.2 ⟨npages n.sz - 1, Nat.zero_le _, by omega, rfl⟩

theorem Built.image_push (h : Built K k₀ A B x b i a path n pg T e k₁) (hp : Pushing k₁ n e k) :
    Image (fixedEntries K a.trapframe a.usyscall) k.mem n.pagetable n.sz T e := by
  refine ⟨h.image.table.congr fun y hy => hp.frame y ?_, h.image.map, h.image.size⟩
  rintro rfl
  exact h.owns.frame hy (Multiset.mem_add.2 (Or.inl h.stack_mem))

theorem Built.moves_push (h : Built K k₀ A B x b i a path n pg T e k₁) (hp : Pushing k₁ n e k) :
    Moves k₁.mem (leafPages e 0 (npages n.sz) + T) k.mem (leafPages e 0 (npages n.sz) + T) where
  conserve := by rw [hp.freelist]
  frame y hy := hp.frame y fun hc => hy (by
    rw [hc]
    exact Multiset.mem_add.2 (Or.inl (Multiset.mem_add.2 (Or.inl h.stack_mem))))

theorem Built.inv_push (h : Built K k₀ A B x b i a path n pg T e k₁) (hp : Pushing k₁ n e k) :
    KInv K k (Function.update A i (some (a.shadow e (npages n.sz)))) pg (leafPages e 0 (npages n.sz) + T + B) x b := by
  rw [hp.rest]
  exact h.inv.rest (h.moves_push hp)

/-- Above the guard page only the stack page can be written. -/
theorem Built.stack_vpn (h : Built K k₀ A B x b i a path n pg T e k₁) {c : Nat} (hc : n.sz - PGSIZE ≤ c)
    (hw : WritableAt e c) : c / PGSIZE = npages n.sz - 1 := by
  have hlt := h.image.writable hw.vpn hw.2
  have hal := h.aligned
  simp only [PGSIZE] at *
  omega

/-- **One `copyout` to the stack.** -/
theorem Built.copyout_spec (h : Built K k₀ A B x b i a path n pg T e k₁) (hp : Pushing k₁ n e k) {dst : Nat}
    (src : List UInt8) (hdst : n.sz - PGSIZE ≤ dst) :
    wpm (Kernel.vm (copyout n.pagetable dst src)) (fun r k' => Pushing k₁ n e k' ∧ (r < 0 ∨
      (∀ j, j < src.length → dst + j < n.sz ∧ k'.mem.userByte e (dst + j) = src.getD j 0) ∧
      ∀ c, n.sz - PGSIZE ≤ c → c < n.sz → ¬ (dst ≤ c ∧ c < dst + src.length) →
        k'.mem.userByte e c = k.mem.userByte e c)) P H k := by
  rw [Kernel.wpm_vm]
  refine wpm_mono (wpm_of_wp (copyout_exact (h.image_push hp).table (h.image.ownPages h.owns))) ?_
  rintro r m ⟨l, hwrote, hres⟩
  have hvpn : ∀ j, j < l → (dst + j) / PGSIZE = npages n.sz - 1 := fun j hj =>
    h.stack_vpn (by omega) (hwrote.writable j hj)
  refine ⟨⟨by rw [hp.rest], hwrote.freelist.trans hp.freelist, fun y hy => ?_⟩, ?_⟩
  · refine Eq.trans ?_ (hp.frame y hy)
    funext o
    refine hwrote.frame y o fun j hj hc => hy ?_
    rw [hc.1, hvpn j hj]
  · rcases hres with ⟨-, rfl⟩ | ⟨rfl, -⟩
    swap
    · exact Or.inl (by decide)
    refine Or.inr ⟨fun j hj => ⟨?_, hwrote.bytes j hj⟩, fun c hlow hc hout => ?_⟩
    · have hv := hvpn j hj
      have hal := h.aligned
      have htwo := h.two
      simp only [PGSIZE] at *
      omega
    · refine hwrote.frame _ _ fun j hj hat => hout ?_
      have hcv : c / PGSIZE = npages n.sz - 1 := by
        have hal := h.aligned
        simp only [PGSIZE] at *
        omega
      have hmod : c % PGSIZE = (dst + j) % PGSIZE := hat.2
      have hdiv : c / PGSIZE = (dst + j) / PGSIZE := hcv.trans (hvpn j hj).symm
      have hcj : c = dst + j := by
        rw [← Nat.div_add_mod c PGSIZE, ← Nat.div_add_mod (dst + j) PGSIZE, hdiv, hmod]
      omega

/-! ## The strings -/

/-- The strings `args` have been pushed. -/
structure Pushed (k₁ : Kernel) (n : NewImage) (e : Nat → Nat) (args : List (List UInt8)) (sp : Nat)
    (ustack : List Nat) (k : Kernel) : Prop where
  push : Pushing k₁ n e k
  count : ustack.length = args.length
  low : n.sz - PGSIZE ≤ sp
  high : sp ≤ n.sz
  laid : Laid (k.mem.userByte e) sp n.sz (args.zip ustack)

theorem Built.base_pos (h : Built K k₀ A B x b i a path n pg T e k₁) : 0 < n.sz - PGSIZE ∧ n.sz ≤ MAXVA := by
  have hal := h.aligned
  have htwo := h.two
  refine ⟨?_, h.image.size⟩
  simp only [PGSIZE] at *
  omega

/-- One string. -/
theorem Built.push_spec (h : Built K k₀ A B x b i a path n pg T e k₁) {args : List (List UInt8)} {sp : Nat}
    {ustack : List Nat} (hp : Pushed k₁ n e args sp ustack k) (arg : List UInt8)
    (hlow : n.sz - PGSIZE ≤ Kernel.pushDown sp (arg.length + 1)) :
    wpm (Kernel.vm (copyout n.pagetable (Kernel.pushDown sp (arg.length + 1)) (arg ++ [0]))) (fun r k' =>
      Pushing k₁ n e k' ∧ (r < 0 ∨ Pushed k₁ n e (args ++ [arg]) (Kernel.pushDown sp (arg.length + 1))
        (ustack ++ [Kernel.pushDown sp (arg.length + 1)]) k')) P H k := by
  refine wpm_mono (h.copyout_spec hp.push (arg ++ [0]) hlow) ?_
  rintro r k' ⟨hpush, hr⟩
  refine ⟨hpush, hr.imp_right ?_⟩
  rintro ⟨hbytes, hkeep⟩
  rw [List.length_append, List.length_singleton] at hbytes hkeep
  obtain ⟨hpos, hmax⟩ := h.base_pos
  have hend := (hbytes arg.length (Nat.lt_succ_self _)).1
  obtain ⟨hfit, -⟩ := Kernel.pushDown_fits (Nat.le_trans hp.high hmax) hpos hlow (by omega)
  have hhigh := hp.high
  refine ⟨hpush, by simp [hp.count], hlow, by omega, ?_⟩
  rw [List.zip_append hp.count.symm]
  refine hp.laid.push hp.high hfit (fun c hc hct => ?_) fun j hj => (hbytes j hj).2
  have hplow := hp.low
  exact hkeep c (by omega) hct (by omega)

/-- **All strings.** -/
theorem Built.pushArgs_spec (h : Built K k₀ A B x b i a path n pg T e k₁) {base : Nat} (hbase : base = n.sz - PGSIZE) :
    ∀ (args : List (List UInt8)) (argc : Nat) {done : List (List UInt8)} {sp : Nat} {ustack : List Nat} {k : Kernel},
    Pushed k₁ n e done sp ustack k →
    wpm (Kernel.pushArgs n.pagetable base args argc sp ustack) (fun r k' => match r with
      | none => Pushing k₁ n e k'
      | some (sp', ustack') => Pushed k₁ n e (done ++ args) sp' ustack' k') P H k
  | [], argc, done, sp, ustack, k, hp => by
    unfold Kernel.pushArgs
    rw [wpm_pure, List.append_nil]
    exact hp
  | arg :: args, argc, done, sp, ustack, k, hp => by
    unfold Kernel.pushArgs
    dsimp only
    split
    · exact hp.push
    split
    · exact hp.push
    rename_i hlow
    refine wpm_seq (h.push_spec hp arg (hbase ▸ Nat.le_of_not_lt hlow)) ?_
    rintro r k' ⟨hpush, hr⟩
    split
    · exact hpush
    rename_i hneg
    have hrest := h.pushArgs_spec hbase args (argc + 1) (hr.resolve_left hneg)
    rw [List.append_assoc] at hrest
    exact hrest

/-! ## The array -/

/-- In the memory `c` the strings `args` lie on the stack page below `top`, and the array of their addresses,
ended by `0`, lies below them at `sp`. -/
structure Passed (c : Nat → UInt8) (top : Nat) (args : List (List UInt8)) (sp : Nat) (ustack : List Nat) : Prop where
  count : ustack.length = args.length
  aligned : sp % 16 = 0
  low : top - PGSIZE ≤ sp
  strings : Laid c (sp + 8 * (args.length + 1)) top (args.zip ustack)
  high : sp + 8 * (args.length + 1) ≤ top
  words : ∀ j, j < args.length → wordAt c (sp + 8 * j) = ustack.getD j 0
  last : wordAt c (sp + 8 * args.length) = 0

theorem Laid.address_lt {c : Nat → UInt8} {sp top : Nat} {args : List (List UInt8)} {ustack : List Nat}
    (h : Laid c sp top (args.zip ustack)) (hlen : ustack.length = args.length) : ∀ w ∈ ustack, w < top := by
  intro w hw
  obtain ⟨j, hj, rfl⟩ := List.mem_iff_getElem.1 hw
  have hz : j < (args.zip ustack).length := by simpa [hlen] using hj
  have hmem := List.getElem_mem hz
  rw [List.getElem_zip] at hmem
  have hin := (h.within _ hmem).2
  dsimp only at hin
  omega

/-- `copyout` of the array. -/
theorem Built.array_spec (h : Built K k₀ A B x b i a path n pg T e k₁) {args : List (List UInt8)} {sp sp' : Nat}
    {ustack : List Nat} (hp : Pushed k₁ n e args sp ustack k)
    (hsp' : sp' = Kernel.pushDown sp ((args.length + 1) * 8)) (hlow : n.sz - PGSIZE ≤ sp') :
    wpm (Kernel.vm (copyout n.pagetable sp' (Kernel.wordBytes (ustack ++ [0])))) (fun r k' => Pushing k₁ n e k' ∧
      (r < 0 ∨ Passed (k'.mem.userByte e) n.sz args sp' ustack)) P H k := by
  refine wpm_mono (h.copyout_spec hp.push (Kernel.wordBytes (ustack ++ [0])) hlow) ?_
  rintro r k' ⟨hpush, hr⟩
  refine ⟨hpush, hr.imp_right ?_⟩
  rintro ⟨hbytes, hkeep⟩
  have hlen : (Kernel.wordBytes (ustack ++ [0])).length = (args.length + 1) * 8 := by
    rw [Kernel.wordBytes_length, List.length_append, hp.count, List.length_singleton]
  obtain ⟨hpos, hmax⟩ := h.base_pos
  have hend := (hbytes (args.length * 8 + 7) (by omega)).1
  obtain ⟨hfit, halign⟩ := Kernel.pushDown_fits (n := (args.length + 1) * 8) (Nat.le_trans hp.high hmax) hpos
    (hsp' ▸ hlow) (by omega)
  rw [← hsp'] at hfit halign
  have hhigh := hp.high
  have hplow := hp.low
  have hlaid : Laid (k'.mem.userByte e) sp n.sz (args.zip ustack) :=
    hp.laid.lower (Nat.le_refl _) fun c hc hct => hkeep c (by omega) hct (by omega)
  have hwords : ∀ j, j < (ustack ++ [0]).length →
      wordAt (k'.mem.userByte e) (sp' + 8 * j) = (ustack ++ [0]).getD j 0 := by
    refine Kernel.wordAt_wordBytes _ _ (fun w hw => ?_) fun j hj => (hbytes j hj).2
    rcases List.mem_append.1 hw with hw | hw
    · have := hlaid.address_lt hp.count w hw
      simp only [MAXVA] at hmax
      omega
    · rw [List.mem_singleton.1 hw]
      decide
  refine ⟨hp.count, halign, hlow, ?_, by omega, fun j hj => ?_, ?_⟩
  · refine ⟨fun q hq => ⟨?_, (hlaid.within q hq).2⟩, hlaid.bytes, hlaid.apart⟩
    have := (hlaid.within q hq).1
    omega
  · have hj' : j < ustack.length := by rw [hp.count]; exact hj
    rw [hwords j (by rw [List.length_append]; omega), List.getD_append _ _ _ _ hj']
  · rw [hwords args.length (by simp [hp.count]), List.getD_append_right _ _ _ _ (by rw [hp.count]), hp.count]
    simp

end push

end Xv6
