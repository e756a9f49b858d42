import Xv6.Kernel.Grow
import Xv6.Kernel.Segments

/-!
# Loading an image

* `Image` — the address space that `exec` builds next to the one of the process.
* `Loading` — the kernel while there is an image: only memory that was free and the file system have changed.
* `Loaded` — the image has the bytes and the permissions that the headers describe.
* `loadLoop_spec` — the loop over the program headers keeps `Loading`, and from a file without holes it
  loads what the headers describe.
-/

namespace Xv6

open Prog

/-- An image of size `sz`, with the entries `f` above user memory. -/
structure Image (f : Nat → Nat) (s : Mem) (pt sz : Nat) (T : Multiset Nat) (e : Nat → Nat) : Prop where
  table : PageTable s pt T e
  map : UserMap e f (npages sz)
  size : sz ≤ MAXVA

/-- All user memory can be used by the user. -/
def UserPages (e : Nat → Nat) (n : Nat) : Prop := ∀ v, v < n → hasFlag (e v) PTE_U = true

/-! ## The bytes of user memory -/

/-- The first `n` pages have the bytes `c`. -/
def Holds (m : Mem) (e : Nat → Nat) (n : Nat) (c : Nat → UInt8) : Prop :=
  ∀ a, a / PGSIZE < n → m.userByte e a = c a

/-- The bytes `c` with `n` bytes of a file, from `off` on, laid over them at `va`. -/
def overlay (g c : Nat → UInt8) (va off n : Nat) (a : Nat) : UInt8 :=
  if va ≤ a ∧ a < va + n then g (off + (a - va)) else c a

section holds

variable {m m' : Mem} {e e' : Nat → Nat} {n : Nat} {c g : Nat → UInt8}

theorem overlay_zero (va off : Nat) : overlay g c va off 0 = c := by
  funext a
  unfold overlay
  rw [if_neg (by omega)]

/-- The next bytes of the file. -/
theorem overlay_overlay (va off i k : Nat) :
    overlay g (overlay g c va off i) (va + i) (off + i) k = overlay g c va off (i + k) := by
  funext a
  unfold overlay
  by_cases h1 : va + i ≤ a ∧ a < va + i + k
  · rw [if_pos h1, if_pos (by omega)]
    congr 1
    omega
  · rw [if_neg h1]
    by_cases h2 : va ≤ a ∧ a < va + i
    · rw [if_pos h2, if_pos (by omega)]
    · rw [if_neg h2, if_neg (by omega)]

theorem Holds.congr (h : Holds m e n c) (he : ∀ v, v < n → e' v = e v)
    (hp : ∀ x ∈ leafPages e 0 n, m'.page x = m.page x) : Holds m' e' n c := by
  intro a ha
  rw [← h a ha]
  unfold Mem.userByte
  rw [he _ ha, hp _ (mem_leafPages.2 ⟨_, Nat.zero_le _, ha, rfl⟩)]

/-- New pages with zeroes. -/
theorem Holds.grow {n' : Nat} (h : Holds m e n c) (he : ∀ v, v < n → e' v = e v)
    (hp : ∀ x ∈ leafPages e 0 n, m'.page x = m.page x) (hz : Filled m' e' n n' fun _ _ => 0)
    (hc : ∀ a, n ≤ a / PGSIZE → c a = 0) : Holds m' e' n' c := by
  intro a ha
  by_cases hlt : a / PGSIZE < n
  · exact h.congr he hp a hlt
  · rw [hc a (Nat.le_of_not_lt hlt)]
    unfold Mem.userByte
    rw [hz _ (Nat.le_of_not_lt hlt) ha]

/-- A piece of the file is copied to page `v`, at offset `i` of the page. -/
theorem Holds.setBytes {v i k off : Nat} (hnd : (leafPages e 0 n).Nodup) (hv : v < n) (hik : i + k ≤ PGSIZE)
    (h : Holds m e n (overlay g c (v * PGSIZE) off i)) :
    Holds (m.setBytes (PTE2PA (e v)) i (bytesAt g (off + i) k)) e n (overlay g c (v * PGSIZE) off (i + k)) := by
  intro a ha
  have hold := h a ha
  rw [← overlay_overlay]
  generalize overlay g c (v * PGSIZE) off i = c' at hold ⊢
  unfold overlay
  by_cases hpage : a / PGSIZE = v
  · have hdst : (m.setBytes (PTE2PA (e v)) i (bytesAt g (off + i) k)).userByte e a =
        if i ≤ a % PGSIZE then (bytesAt g (off + i) k).getD (a % PGSIZE - i) (m.userByte e a)
        else m.userByte e a := by
      simp only [Mem.userByte, Mem.setBytes, hpage, Function.update_self]
    rw [hdst, hold]
    have hva : v * PGSIZE + a % PGSIZE = a := by
      rw [← hpage, Nat.mul_comm]
      exact Nat.div_add_mod a PGSIZE
    by_cases hin : i ≤ a % PGSIZE ∧ a % PGSIZE < i + k
    · rw [if_pos hin.1, if_pos (by omega), bytesAt_getD _ _ (by omega)]
      congr 1
      omega
    · rw [if_neg (show ¬ (v * PGSIZE + i ≤ a ∧ a < v * PGSIZE + i + k) by omega)]
      split
      · refine List.getD_eq_default _ _ ?_
        rw [bytesAt_length]
        omega
      · rfl
  · have hne : PTE2PA (e (a / PGSIZE)) ≠ PTE2PA (e v) := fun heq =>
      hpage (leafPages_inj hnd ⟨Nat.zero_le _, ha⟩ ⟨Nat.zero_le _, hv⟩ heq)
    have hout : (m.setBytes (PTE2PA (e v)) i (bytesAt g (off + i) k)).userByte e a = m.userByte e a := by
      unfold Mem.userByte
      rw [Mem.setBytes_page_ne _ _ _ hne]
    rw [hout, hold, if_neg]
    intro hin
    refine hpage ?_
    simp only [PGSIZE] at *
    omega

end holds

section image

variable {K : KernelImage} {s s' : Mem} {pt tf sz newsz perm : Nat} {T : Multiset Nat} {e e' f : Nat → Nat}
  {E : Mem → Prop}

theorem Fresh.userPages {n m : Nat} (h : UserPages e n) (hperm : perm < 2 ^ 10)
    (hf : Fresh e n m (fun _ => PTE_R ||| PTE_U ||| perm) e') : UserPages e' m := by
  intro v hv
  by_cases hvn : v < n
  · rw [hf.out v (by omega)]
    exact h v hvn
  · obtain ⟨p, -, he⟩ := hf.new v (by omega) hv
    have hlt : PTE_R ||| PTE_U ||| perm < 2 ^ 10 := Nat.or_lt_two_pow (by decide) hperm
    rw [he, hasFlag_mod (by decide), PTE_FLAGS_leafPte hlt, hasFlag_or, hasFlag_or, hasFlag_or]
    rfl

theorem Image.npages_le (_ : Image f s pt sz T e) (ho : Owns K s (leafPages e 0 (npages sz) + T)) :
    npages sz ≤ 32768 := by
  have hcard := ho.left.card_le
  rw [leafPages_card] at hcard
  omega

theorem Image.userTable (h : Image f s pt sz T e) (ho : Owns K s (leafPages e 0 (npages sz) + T))
    (hf₀ : ∀ u, u < usyscallVpn → f u = 0) : UserTable K s pt T e (npages sz) where
  table := h.table
  owns := ho
  leaf _ hu := h.map.isLeaf hu
  unmapped u hu hlt := by
    have hv : u < usyscallVpn := Nat.lt_of_mul_lt_mul_right (Nat.lt_of_lt_of_eq hlt (by decide : USYSCALL = usyscallVpn * PGSIZE))
    rw [h.map.high u hu (Nat.lt_trans hv (by decide))]
    exact hf₀ u hv

/-- The result of `uvmalloc` in an image that has grown from `sz` to `r`: the new pages are zero and the old ones
have not been written. -/
structure Widened (f : Nat → Nat) (perm : Nat) (s : Mem) (pt sz : Nat) (T : Multiset Nat) (e : Nat → Nat) (s' : Mem)
    (r : Nat) (T' : Multiset Nat) (e' : Nat → Nat) : Prop where
  image : Image f s' pt r T' e'
  fresh : Fresh e (npages sz) (npages r) (fun _ => PTE_R ||| PTE_U ||| perm) e'
  moves : Moves s (leafPages e 0 (npages sz) + T) s' (leafPages e' 0 (npages r) + T')
  zero : Filled s' e' (npages sz) (npages r) fun _ _ => 0
  kept : ∀ x ∈ leafPages e 0 (npages sz), s'.page x = s.page x

/-- `uvmalloc` in an image: all the pages, or none.  A size that is smaller than the old one changes nothing. -/
theorem Image.grow_spec (h : Image f s pt sz T e) (ho : Owns K s (leafPages e 0 (npages sz) + T))
    (hf₀ : ∀ u, u < usyscallVpn → f u = 0) (hx : perm < 2 ^ 10) :
    wp (uvmalloc K pt sz newsz perm) (fun r s' =>
      (∃ T' e', r = max sz newsz ∧ Widened f perm s pt sz T e s' r T' e') ∨
      r = 0 ∧ ∃ T', Image f s' pt sz T' e ∧
        Moves s (leafPages e 0 (npages sz) + T) s' (leafPages e 0 (npages sz) + T')) E s := by
  by_cases hlt : newsz < sz
  · unfold uvmalloc
    rw [if_pos hlt]
    refine Or.inl ⟨T, e, (Nat.max_eq_left (Nat.le_of_lt hlt)).symm, h, Fresh.refl _ _ _, Moves.refl _ _, ?_,
      fun _ _ => rfl⟩
    intro u h1 h2
    omega
  have hle : sz ≤ newsz := Nat.le_of_not_lt hlt
  refine wp_mono (uvmalloc_grown (h.userTable ho hf₀) hx hle) ?_ fun _ h => h.elim
  have hcomm : T + leafPages e 0 (npages sz) = leafPages e 0 (npages sz) + T := add_comm _ _
  rintro r s' ⟨T', ⟨rfl, hmax, e', g⟩ | ⟨rfl, hr⟩⟩
  · left
    have hmono := npages_mono hmax hle
    have hread : ∀ u, npages sz ≤ u → u < npages r → hasFlag (PTE_R ||| PTE_U ||| perm) PTE_R = true := by
      intro u _ _
      rw [hasFlag_or, hasFlag_or]
      rfl
    have hlow : leafPages e' 0 (npages sz) = leafPages e 0 (npages sz) :=
      leafPages_congr fun u _ hu => g.added.out u (by omega)
    have happ := leafPages_append e' (Nat.zero_le (npages sz)) hmono
    refine ⟨T', e', (Nat.max_eq_right hle).symm,
      ⟨g.user.table, Space.Fresh.userMap h.map hmono hread g.added, hmax⟩, g.added, ?_, g.zero, ?_⟩
    · refine (g.moves.add (leafPages e 0 (npages sz))).congr hcomm ?_
      rw [← happ, hlow]
      abel
    · exact fun x hx => (ho.congr (add_comm _ _)).page_eq g.moves hx
  · right
    refine ⟨rfl, T', ⟨hr.table, h.map, h.size⟩, ?_⟩
    have hm : Moves s T s' T' := hr.moves
    exact (hm.add (leafPages e 0 (npages sz))).congr hcomm (add_comm _ _)

end image

/-! ## While there is an image -/

/-- From `k₀` only free pages and the file system have changed: `X` has been taken, and the call holds `b`. -/
structure Loading (k₀ : Kernel) (X : Multiset Nat) (b : Books) (k : Kernel) : Prop where
  same : ∃ s m, k = { k₀ with fs := s, mem := m }
  moves : Moves k₀.mem 0 k.mem X
  fs : Fs.Inv k.fs (b.above k₀.names)

section loading

variable {K : KernelImage} {k₀ k k' : Kernel} {A : Fin NPROC → Option Space} {pg : Fin NPROC → Multiset Nat}
  {B B' X X' T : Multiset Nat} {x : Fin NFILE → Int} {b b₀ b' : Books} {i : Fin NPROC} {ip : Fin NINODE} {m : Mem}
  {P : String → Prop} {H : Prop} {pt tf sz : Nat} {e : Nat → Nat}

theorem Loading.refl (h₀ : KInv K k₀ A pg B x b) : Loading k₀ 0 b k₀ := ⟨⟨_, _, rfl⟩, Moves.refl _ _, h₀.fs⟩

/-- The pages of the image belong to the call. -/
theorem Loading.inv (h : Loading k₀ X b k) (h₀ : KInv K k₀ A pg B x b₀) : KInv K k A pg (X + B) x b := by
  obtain ⟨⟨s, m, rfl⟩, hm, hfs⟩ := h
  refine ⟨?_, h₀.file.congr rfl rfl fun _ => rfl, hfs, h₀.closed⟩
  refine h₀.mem.rest (zero_add _).symm (show _ = X + _ from ?_) hm fun _ => .refl _
  show k₀.pipes.val + (X + B) = _
  abel

theorem Loading.owns (h : Loading k₀ X b k) (h₀ : KInv K k₀ A pg B x b₀) : Owns K k.mem X :=
  (h.inv h₀).mem.owns.right.right.left

theorem Loading.proc (h : Loading k₀ X b k) : k.proc = k₀.proc := by
  obtain ⟨⟨s, m, rfl⟩, -, -⟩ := h
  rfl

/-- A step on the image. -/
theorem Loading.setMem (h : Loading k₀ X b k) (hm : Moves k.mem X m X') : Loading k₀ X' b { k with mem := m } := by
  obtain ⟨⟨s, m₀, rfl⟩, hm₀, hfs⟩ := h
  exact ⟨⟨s, m, rfl⟩, hm₀.trans hm, hfs⟩

/-- `setBytes` with nothing to write. -/
theorem Mem.setBytes_nil (s : Mem) (pa off : Nat) : s.setBytes pa off [] = s := by
  have hp : (fun i : Fin PGSIZE => if off ≤ i.val then ([] : List UInt8).getD (i.val - off) (s.page pa i)
      else s.page pa i) = s.page pa := by
    funext i
    split <;> rfl
  unfold Mem.setBytes
  rw [hp, Function.update_eq_self]

theorem copyToPage_spec {pa o : Nat} {bs : List UInt8} (halign : pa % PGSIZE = 0) (hlen : o + bs.length ≤ PGSIZE)
    {P : String → Prop} {H : Prop} :
    wpm (copyToPage (pa + o) bs) (fun ok m' => ok = true ∧ m' = m.setBytes pa o bs) P H m := by
  refine ⟨rfl, ?_⟩
  show m.setBytes (PGROUNDDOWN (pa + o)) ((pa + o) % PGSIZE) bs = _
  by_cases hbs : bs = []
  · rw [hbs, Mem.setBytes_nil, Mem.setBytes_nil]
  · have hpos : 0 < bs.length := List.length_pos_iff.2 hbs
    have hpage : PGROUNDDOWN (pa + o) = pa ∧ (pa + o) % PGSIZE = o := by
      simp only [PGROUNDDOWN, PGSIZE] at *
      omega
    rw [hpage.1, hpage.2]

/-- Pages of the image have been written, and nothing else. -/
theorem Loading.fill {f : Nat → Nat} {s : Fs} (h₀ : KInv K k₀ A pg B x b₀)
    (h : Loading k₀ (leafPages e 0 (npages sz) + T) b k) (him : Image f k.mem pt sz T e)
    (hs : Fs.Inv s (b.above k.names)) (hm : Moves k.mem (leafPages e 0 (npages sz)) m (leafPages e 0 (npages sz))) :
    Loading k₀ (leafPages e 0 (npages sz) + T) b { k with fs := s, mem := m } ∧ Image f m pt sz T e := by
  have ho := h.owns h₀
  obtain ⟨⟨s₁, m₁, rfl⟩, hm₁, -⟩ := h
  exact ⟨⟨⟨s, m, rfl⟩, hm₁.trans (hm.add T), hs⟩, him.table.frame ho hm, him.map, him.size⟩

/-- `readi` into page `v` of the image. -/
theorem Kernel.readiPage_spec {f : Nat → Nat} (h₀ : KInv K k₀ A pg B x b₀)
    (h : Loading k₀ (leafPages e 0 (npages sz) + T) b k) (him : Image f k.mem pt sz T e) {v : Nat} (hv : v < npages sz)
    (off : Nat) {n : Nat} (hn : n ≤ PGSIZE) :
    wpm (Kernel.fsysVm (Fs.readi copyToPage ip (PTE2PA (e v)) off n)) (fun r k' =>
      Loading k₀ (leafPages e 0 (npages sz) + T) b k' ∧ Image f k'.mem pt sz T e ∧
      (k.fs.Solid ip → k'.fs = k.fs ∧ r = k.fs.readCount ip off n ∧ ∀ c, Holds k.mem e (npages sz) c →
        Holds k'.mem e (npages sz) (overlay (k.fs.fileByte ip) c (v * PGSIZE) off (k.fs.readCount ip off n))))
      Allowed True k := by
  have ho := h.owns h₀
  have hpa : PTE2PA (e v) ∈ leafPages e 0 (npages sz) := mem_leafPages.2 ⟨v, Nat.zero_le _, hv, rfl⟩
  have halign : PTE2PA (e v) % PGSIZE = 0 := (ho.managed _ (by simp [hpa])).1
  by_cases hS : k.fs.Solid ip
  · have hcount := k.fs.readCount_le ip off n
    refine Kernel.wpm_fsysVm (Fs.readi_solid (J := fun i m =>
      Moves k.mem (leafPages e 0 (npages sz)) m (leafPages e 0 (npages sz)) ∧ ∀ c, Holds k.mem e (npages sz) c →
        Holds m e (npages sz) (overlay (k.fs.fileByte ip) c (v * PGSIZE) off i)) hS ⟨Moves.refl _ _, ?_⟩ ?_) ?_
    · intro c hc
      rw [overlay_zero]
      exact hc
    · rintro i bs m hlen hbs ⟨hm, hc⟩
      refine wpm_mono (copyToPage_spec halign (show i + bs.length ≤ PGSIZE by omega)) ?_
      rintro _ _ ⟨rfl, rfl⟩
      refine ⟨rfl, hm.trans (page_moves hpa _), fun c hold => ?_⟩
      rw [hbs, bytesAt_length]
      exact (hc c hold).setBytes (Multiset.nodup_add.1 ho.left.nodup).1 hv (by omega)
    · rintro r ⟨s, m⟩ ⟨rfl, rfl, hm, hc⟩
      obtain ⟨h', him'⟩ := h.fill h₀ him (h.inv h₀).fs hm
      exact ⟨h', him', fun _ => ⟨rfl, rfl, hc⟩⟩
  · refine Kernel.wpm_fsysVm (Fs.readi_spec
      (J := fun m => Moves k.mem (leafPages e 0 (npages sz)) m (leafPages e 0 (npages sz))) (h.inv h₀).fs
      (Moves.refl _ _) ?_) ?_
    · intro o bs m hlen hm
      refine wpm_mono (copyToPage_spec halign (show o + bs.length ≤ PGSIZE by omega)) ?_
      rintro _ _ ⟨-, rfl⟩
      exact hm.trans (page_moves hpa _)
    · rintro _ ⟨s, m⟩ ⟨hs, hm⟩
      obtain ⟨h', him'⟩ := h.fill h₀ him hs hm
      exact ⟨h', him', fun hS' => absurd hS' hS⟩

theorem npages_mul_le (h : sz ≤ MAXVA) : npages sz * PGSIZE ≤ MAXVA := by
  rw [npages_eq h]
  simp only [MAXVA, PGSIZE] at *
  omega

/-- The pages that `loadseg` fills are all mapped.  Each full page that was read shows that the next offset is
below the size of the file, so it does not wrap. -/
theorem Kernel.loadsegLoop_spec {f : Nat → Nat} (h₀ : KInv K k₀ A pg B x b₀) {va offset fsz : Nat}
    (hva : va % PGSIZE = 0) (hU : UserPages e (npages sz)) :
    ∀ (n j : Nat) (k : Kernel), j + n = pagesBetween 0 fsz → va / PGSIZE + j + n ≤ npages sz →
    Loading k₀ (leafPages e 0 (npages sz) + T) b k → Image f k.mem pt sz T e →
    wpm (Kernel.loadsegLoop pt va ip offset fsz n j) (fun r k' =>
      Loading k₀ (leafPages e 0 (npages sz) + T) b k' ∧ Image f k'.mem pt sz T e ∧
      (k.fs.Solid ip → offset + min (j * PGSIZE) fsz < 2 ^ 32 → k'.fs = k.fs ∧ (0 ≤ r → ∀ c,
        Holds k.mem e (npages sz) (overlay (k.fs.fileByte ip) c va offset (min (j * PGSIZE) fsz)) →
        Holds k'.mem e (npages sz) (overlay (k.fs.fileByte ip) c va offset fsz)))) Allowed True k
  | 0, j, k, hpages, _, h, him => by
    refine ⟨h, him, fun _ _ => ⟨rfl, fun _ c hc => ?_⟩⟩
    have hj : min (j * PGSIZE) fsz = fsz := by
      simp only [pagesBetween, PGSIZE] at *
      omega
    rwa [hj] at hc
  | n + 1, j, k, hpages, hlt, h, him => by
    have hmax := npages_mul_le him.size
    have hdiv : (va + j * PGSIZE) / PGSIZE = va / PGSIZE + j := by
      simp only [PGSIZE] at *
      omega
    have hv : va / PGSIZE + j < npages sz := by omega
    have hva' : va + j * PGSIZE < MAXVA := by
      simp only [PGSIZE] at *
      omega
    have hmul : (va / PGSIZE + j) * PGSIZE = va + j * PGSIZE := by
      simp only [PGSIZE] at *
      omega
    unfold Kernel.loadsegLoop
    rw [wpm_bind, Kernel.wpm_vm]
    refine wpm_mono (wpm_of_wp (walkaddr_spec him.table hva' (by rw [hdiv]; exact (him.map.low _ hv).1)
      (by rw [hdiv]; exact hU _ hv))) ?_
    rintro pa m ⟨rfl, rfl⟩
    rw [hdiv]
    have hpa : PTE2PA (e (va / PGSIZE + j)) ∈ leafPages e 0 (npages sz) :=
      mem_leafPages.2 ⟨_, Nat.zero_le _, hv, rfl⟩
    have hne : PTE2PA (e (va / PGSIZE + j)) ≠ 0 :=
      ((h.owns h₀).managed _ (Multiset.mem_add.2 (Or.inl (Multiset.mem_add.2 (Or.inl hpa))))).ne_zero
    rw [if_neg hne]
    refine wpm_seq (Kernel.readiPage_spec h₀ h him hv _ (Nat.min_le_right _ _)) ?_
    rintro r k₂ ⟨h₂, him₂, hbytes⟩
    split
    · refine ⟨h₂, him₂, fun hS _ => ⟨(hbytes hS).1, fun hr => ?_⟩⟩
      exact absurd hr (by decide)
    · rename_i hr
      refine wpm_mono (Kernel.loadsegLoop_spec h₀ hva hU n (j + 1) k₂ (by omega) (by omega) h₂ him₂) ?_
      rintro r₃ k₃ ⟨h₃, him₃, hrest⟩
      refine ⟨h₃, him₃, fun hS hoff => ?_⟩
      obtain ⟨hfs, hcount, hc₂⟩ := hbytes hS
      have hj : j * PGSIZE < fsz := by
        simp only [pagesBetween, PGSIZE] at *
        omega
      have hnext : min ((j + 1) * PGSIZE) fsz = j * PGSIZE + min (fsz - j * PGSIZE) PGSIZE := by
        simp only [PGSIZE] at *
        omega
      have hpos : 0 < min (fsz - j * PGSIZE) PGSIZE := Nat.lt_min.2 ⟨by omega, by decide⟩
      rw [Nat.min_eq_left (Nat.le_of_lt hj)] at hoff ⊢
      rw [Nat.mod_eq_of_lt hoff] at hcount hc₂
      rw [hcount] at hr
      have hall := Int.ofNat.inj (Decidable.not_not.1 hr)
      have hend := Fs.le_size_of_readCount hall hpos
      have hsize := hS.size
      rw [hall, hmul] at hc₂
      rw [hfs, hnext] at hrest
      obtain ⟨hfs₃, hc₃⟩ := hrest hS (by omega)
      refine ⟨hfs₃, fun hr₃ c hc => hc₃ hr₃ c ?_⟩
      rw [← overlay_overlay]
      exact hc₂ _ hc

theorem leAt_lt (bs : List UInt8) : ∀ (n off : Nat), leAt bs off n < 256 ^ n
  | 0, _ => Nat.one_pos
  | n + 1, off => by
    have h1 := leAt_lt bs n (off + 1)
    have h2 := (bs.getD off 0).toNat_lt
    unfold leAt
    rw [Nat.pow_succ]
    omega

theorem flags2perm_lt (flags : Nat) : flags2perm flags < 2 ^ 10 := by
  unfold flags2perm
  refine Nat.or_lt_two_pow ?_ ?_
  · split <;> decide
  · split <;> decide

theorem ProgHdr.parse_lt (bs : List UInt8) :
    (ProgHdr.parse bs).vaddr < 2 ^ 64 ∧ (ProgHdr.parse bs).memsz < 2 ^ 64 :=
  ⟨leAt_lt bs 8 16, leAt_lt bs 8 40⟩

theorem trapEntries_mem (u : Nat) (hu : u < usyscallVpn) : trapEntries K tf u = 0 :=
  trapEntries_low (Nat.lt_trans hu (by decide))

/-- The pages of a segment lie in the image once `uvmalloc` has succeeded. -/
theorem segment_pages {vaddr filesz memsz r : Nat} (hf : filesz ≤ memsz) (hva : vaddr % PGSIZE = 0)
    (hle : vaddr + memsz ≤ r) (hr : r ≤ MAXVA) :
    vaddr / PGSIZE + 0 + pagesBetween 0 (filesz % 2 ^ 32) ≤ npages r := by
  have hfile := Nat.mod_le filesz (2 ^ 32)
  rw [npages_eq hr]
  unfold pagesBetween
  simp only [PGSIZE] at *
  omega

/-- `readi` of a header. -/
theorem Kernel.readHdr_spec (h₀ : KInv K k₀ A pg B x b₀) (h : Loading k₀ X b k) (off n : Nat) :
    wpm (Kernel.fsys (Fs.readiKernel ip off n)) (fun r k' => Loading k₀ X b k' ∧ k'.mem = k.mem ∧
      (k.fs.Solid ip → k'.fs = k.fs ∧ (r.1 = n → r.2 = bytesAt (k.fs.fileByte ip) off n))) Allowed True k := by
  have hkeep := Fs.keeps_readiKernel ip off n k.fs _ (h.inv h₀).fs
  have hfile : wpm (Fs.readiKernel ip off n) (fun r s' => Fs.Inv s' (b.above k.names) ∧ (k.fs.Solid ip → s' = k.fs ∧
      (r.1 = n → r.2 = bytesAt (k.fs.fileByte ip) off n))) (· ∈ Fs.panics) True k.fs := by
    by_cases hS : k.fs.Solid ip
    · refine wpm_mono (wpm_and hkeep (Fs.readiKernel_solid hS)) ?_
      rintro ⟨r, bs⟩ s ⟨hs, rfl, hr, hbs⟩
      refine ⟨hs, fun _ => ⟨rfl, fun hrn => ?_⟩⟩
      have hcount : k.fs.readCount ip off n = n := Int.ofNat.inj (hr.symm.trans hrn)
      rw [hcount] at hbs
      exact hbs
    · exact wpm_mono hkeep fun _ _ hs => ⟨hs, fun hS' => absurd hS' hS⟩
  refine Kernel.wpm_fsys allowed_fs hfile ?_
  rintro r s ⟨hs, hsolid⟩
  obtain ⟨⟨s₁, m₁, rfl⟩, hm₁, -⟩ := h
  exact ⟨⟨⟨s, m₁, rfl⟩, hm₁, hs⟩, rfl, hsolid⟩

theorem loads_skip {g : Nat → UInt8} {n off : Nat} {ph : ProgHdr}
    (hph : ph = ProgHdr.parse (bytesAt g (off % 2 ^ 32) PROGHDR_SIZE)) (h : ph.type ≠ ELF_PROG_LOAD) :
    loads g (n + 1) off = loads g n (off + PROGHDR_SIZE) := by
  unfold loads
  rw [progHdrs, ← hph]
  simp [h]

theorem loads_cons {g : Nat → UInt8} {n off : Nat} {ph : ProgHdr}
    (hph : ph = ProgHdr.parse (bytesAt g (off % 2 ^ 32) PROGHDR_SIZE)) (h : ph.type = ELF_PROG_LOAD) :
    loads g (n + 1) off = [ph] ++ loads g n (off + PROGHDR_SIZE) := by
  unfold loads
  rw [progHdrs, ← hph]
  simp [h]

/-- The image has what the headers `hs` of the file `g` describe. -/
structure Loaded (g : Nat → UInt8) (hs : List ProgHdr) (m : Mem) (e : Nat → Nat) (sz : Nat) : Prop where
  size : sz = Segments.size hs
  small : ∀ ph ∈ hs, ph.filesz ≤ ph.memsz
  bytes : Holds m e (npages sz) (Segments.byteAt g hs)
  flags : ∀ v, v < npages sz → PTE_FLAGS (e v) = PTE_R ||| PTE_U ||| Segments.permAt hs v ||| PTE_V

theorem lt_npages_iff {v : Nat} (h : sz ≤ MAXVA) : v < npages sz ↔ v * PGSIZE < sz := by
  rw [npages_eq h]
  simp only [PGSIZE]
  omega

theorem le_of_npages_le {a : Nat} (h : npages sz ≤ a / PGSIZE) (hmax : sz ≤ MAXVA) : sz ≤ a := by
  rw [npages_eq hmax] at h
  simp only [PGSIZE] at h
  omega

/-- `uvmalloc` and `loadseg` for one more header. -/
theorem Loaded.concat {g : Nat → UInt8} {hs : List ProgHdr} {ph : ProgHdr} {f : Nat → Nat} {m m' m'' : Mem} {r : Nat}
    {T' : Multiset Nat} {e' : Nat → Nat} (h : Loaded g hs m e sz) (hmax : sz ≤ MAXVA) (hfile : ph.filesz ≤ ph.memsz)
    (hr : r = max sz (ph.vaddr + ph.memsz)) (hw : Widened f (flags2perm ph.flags) m pt sz T e m' r T' e')
    (hseg : ∀ c, Holds m' e' (npages r) c →
      Holds m'' e' (npages r) (overlay g c ph.vaddr (ph.off % 2 ^ 32) ph.filesz)) :
    Loaded g (hs ++ [ph]) m'' e' r where
  size := by rw [Segments.size_concat, hr, h.size]
  small qh hq := by
    rcases List.mem_append.1 hq with hq | hq
    · exact h.small qh hq
    · rw [List.mem_singleton.1 hq]
      exact hfile
  bytes := by
    have hlow : ∀ v, v < npages sz → e' v = e v := fun v hv => hw.fresh.out v (by omega)
    have hold := h.bytes.grow hlow hw.kept hw.zero fun a ha =>
      Segments.byteAt_above h.small (h.size ▸ le_of_npages_le ha hmax)
    intro a ha
    rw [hseg _ hold a ha, Segments.byteAt_concat]
    rfl
  flags v hv := by
    by_cases hlt : v < npages sz
    · have hin : v * PGSIZE < Segments.size hs := h.size ▸ (lt_npages_iff hmax).1 hlt
      rw [hw.fresh.out v (by omega), h.flags v hlt, Segments.permAt_concat_old hin]
    · have hout : ¬ v * PGSIZE < Segments.size hs := fun hin => hlt ((lt_npages_iff hmax).2 (h.size ▸ hin))
      have hend := (lt_npages_iff hw.image.size).1 hv
      have hsize := h.size
      rw [Segments.permAt_concat_new hout (by omega)]
      obtain ⟨p, -, hp⟩ := hw.fresh.new v (Nat.le_of_not_lt hlt) hv
      rw [hp]
      exact PTE_FLAGS_leafPte (Nat.or_lt_two_pow (by decide) (flags2perm_lt _))

/-- **The loop over the program headers.** -/
theorem Kernel.loadLoop_spec (h₀ : KInv K k₀ A pg B x b₀) (n : Nat) {off : Nat}
    (h : Loading k₀ (leafPages e 0 (npages sz) + T) b k) (him : Image (trapEntries K tf) k.mem pt sz T e)
    (hU : UserPages e (npages sz)) :
    wpm (Kernel.loadLoop K ip pt n off sz) (fun r k' => ∃ T' e',
      Loading k₀ (leafPages e' 0 (npages r.2) + T') b k' ∧ Image (trapEntries K tf) k'.mem pt r.2 T' e' ∧
      UserPages e' (npages r.2) ∧ (k.fs.Solid ip → k'.fs = k.fs ∧ (r.1 = true → ∀ hs,
        Loaded (k.fs.fileByte ip) hs k.mem e sz →
        Loaded (k.fs.fileByte ip) (hs ++ loads (k.fs.fileByte ip) n off) k'.mem e' r.2))) Allowed True k := by
  induction n generalizing off sz k T e with
  | zero =>
    refine ⟨T, e, h, him, hU, fun _ => ⟨rfl, fun _ hs hl => ?_⟩⟩
    have hnil : loads (k.fs.fileByte ip) 0 off = [] := rfl
    rw [hnil, List.append_nil]
    exact hl
  | succ n ih =>
    unfold Kernel.loadLoop
    refine wpm_seq (Kernel.readHdr_spec h₀ h _ _) ?_
    rintro ⟨r, bs⟩ k₁ ⟨h₁, hm₁, hsolid⟩
    rw [← hm₁] at him
    -- no header has been loaded when one is refused
    have hfail : ∃ T' e', Loading k₀ (leafPages e' 0 (npages sz) + T') b k₁ ∧
        Image (trapEntries K tf) k₁.mem pt sz T' e' ∧ UserPages e' (npages sz) ∧ (k.fs.Solid ip → k₁.fs = k.fs ∧
          (false = true → ∀ hs, Loaded (k.fs.fileByte ip) hs k.mem e sz →
            Loaded (k.fs.fileByte ip) (hs ++ loads (k.fs.fileByte ip) (n + 1) off) k₁.mem e' sz)) :=
      ⟨T, e, h₁, him, hU, fun hS => ⟨(hsolid hS).1, fun hc => absurd hc Bool.false_ne_true⟩⟩
    obtain ⟨hvaddr, hmemsz⟩ := ProgHdr.parse_lt bs
    dsimp only
    split
    · exact hfail
    rename_i hall
    have hparse : k.fs.Solid ip → k₁.fs = k.fs ∧ ProgHdr.parse bs =
        ProgHdr.parse (bytesAt (k.fs.fileByte ip) (off % 2 ^ 32) PROGHDR_SIZE) := fun hS =>
      ⟨(hsolid hS).1, congrArg ProgHdr.parse ((hsolid hS).2 (Decidable.not_not.1 hall))⟩
    clear hsolid
    generalize ProgHdr.parse bs = ph at hvaddr hmemsz hparse ⊢
    split
    · rename_i htype
      refine wpm_mono (ih h₁ him hU) ?_
      rintro r k₂ ⟨T', e', h₂, him₂, hU₂, hrest⟩
      refine ⟨T', e', h₂, him₂, hU₂, fun hS => ?_⟩
      obtain ⟨hfs, hph⟩ := hparse hS
      rw [hfs, hm₁] at hrest
      rw [loads_skip hph htype]
      exact hrest hS
    rename_i htype
    split
    · exact hfail
    rename_i hfile
    split
    · exact hfail
    rename_i hwrap
    split
    · exact hfail
    rename_i halign
    have hsum : (ph.vaddr + ph.memsz) % 2 ^ 64 = ph.vaddr + ph.memsz := by omega
    rw [hsum, wpm_bind, Kernel.wpm_vm]
    refine wpm_mono (wpm_of_wp (him.grow_spec (h₁.owns h₀) trapEntries_mem (flags2perm_lt _))) ?_
    rintro sz1 m (⟨T', e', hsz1, hw⟩ | ⟨rfl, T', him', hm⟩)
    · have h₂ := h₁.setMem hw.moves
      have hU' := Fresh.userPages hU (flags2perm_lt _) hw.fresh
      by_cases hz : sz1 = 0
      · rw [if_pos hz]
        have hsz : sz = sz1 := by omega
        refine ⟨T', e', hsz ▸ h₂, hsz ▸ hw.image, hsz ▸ hU', fun hS => ⟨(hparse hS).1, fun hc => ?_⟩⟩
        exact absurd hc Bool.false_ne_true
      · rw [if_neg hz]
        have hpages := segment_pages (Nat.le_of_not_lt hfile) (Decidable.not_not.1 halign)
          (hsz1 ▸ Nat.le_max_right _ _) hw.image.size
        have hnp := hw.image.npages_le (h₂.owns h₀)
        have hfsz : ph.filesz % 2 ^ 32 = ph.filesz := by
          rw [npages_eq hw.image.size] at hnp
          omega
        refine wpm_seq (Kernel.loadsegLoop_spec h₀ (Decidable.not_not.1 halign) hU' _ 0 _ (Nat.zero_add _) hpages h₂
          hw.image) ?_
        rintro r₃ k₃ ⟨h₃, him₃, hseg⟩
        have hoff := Nat.mod_lt ph.off (show 0 < 2 ^ 32 by decide)
        split
        · refine ⟨T', e', h₃, him₃, hU', fun hS => ?_⟩
          obtain ⟨hfs, -⟩ := hparse hS
          refine ⟨?_, fun hc => absurd hc Bool.false_ne_true⟩
          rw [← hfs]
          exact (hseg (show k₁.fs.Solid ip by rw [hfs]; exact hS) (by omega)).1
        · rename_i hr₃
          refine wpm_mono (ih h₃ him₃ hU') ?_
          rintro r k₄ ⟨T'', e'', h₄, him₄, hU₄, hrest⟩
          refine ⟨T'', e'', h₄, him₄, hU₄, fun hS => ?_⟩
          obtain ⟨hfs, hph⟩ := hparse hS
          obtain ⟨hfs₃, hc₃⟩ := hseg (show k₁.fs.Solid ip by rw [hfs]; exact hS) (by omega)
          have hfs' : k₃.fs = k.fs := hfs₃.trans hfs
          rw [hfs'] at hrest
          obtain ⟨hfs₄, hload⟩ := hrest hS
          refine ⟨hfs₄, fun hr hs hl => ?_⟩
          rw [loads_cons hph (Decidable.not_not.1 htype), ← List.append_assoc]
          refine hload hr _ (Loaded.concat (hm₁ ▸ hl) him.size (Nat.le_of_not_lt hfile) hsz1 hw fun c hc => ?_)
          have hlaid := hc₃ (Int.not_lt.1 hr₃) c
          rw [Nat.zero_mul, Nat.zero_min, overlay_zero, hfsz] at hlaid
          have hg : k.fs.fileByte ip = k₁.fs.fileByte ip := by rw [hfs]
          rw [hg]
          exact hlaid hc
    · rw [if_pos rfl]
      refine ⟨T', e, h₁.setMem hm, him', hU, fun hS => ⟨(hparse hS).1, fun hc => ?_⟩⟩
      exact absurd hc Bool.false_ne_true

end loading

end Xv6
