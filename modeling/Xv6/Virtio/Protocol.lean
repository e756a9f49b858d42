import Xv6.Virtio

/-!
# The driver keeps the virtio protocol

* `alloc3_desc_spec`, `free_chain_spec` — what the allocator does; it does not panic.
* `Ticket`, `Flight` — the requests in flight, sorted by how far they have come.
* `Inv` — the rings hold the requests that are pending and used, and the chains of all requests are disjoint.
* `Inv.step` — every step keeps it, and none panics.
* `driver_protocol` — what follows for every reachable state.
-/

namespace Xv6.Virtio

open Function

variable {ι β : Type}

/-! ## The allocator -/

theorem allocLoop_spec (d : Disk β) (i n : Nat) :
    d.allocLoop i n = (none, d) ∨
      ∃ j, i ≤ j ∧ j < i + n ∧ d.free j = true ∧
        d.allocLoop i n = (some j, { d with free := update d.free j false }) := by
  induction n generalizing i with
  | zero => exact Or.inl rfl
  | succ n ih =>
    rw [Disk.allocLoop]
    by_cases hfree : d.free i = true
    · rw [if_pos hfree]
      exact Or.inr ⟨i, by omega, by omega, hfree, rfl⟩
    · rw [if_neg hfree]
      rcases ih (i + 1) with hnone | ⟨j, hij, hj, hj', heq⟩
      · exact Or.inl hnone
      · exact Or.inr ⟨j, by omega, by omega, hj', heq⟩

theorem alloc_desc_spec (d : Disk β) (f : Nat → Bool) :
    Disk.alloc_desc { d with free := f } = (none, { d with free := f }) ∨
      ∃ j, j < NUM ∧ f j = true ∧
        Disk.alloc_desc { d with free := f } = (some j, { d with free := update f j false }) := by
  rcases allocLoop_spec { d with free := f } 0 NUM with hnone | ⟨j, -, hj, hfree, heq⟩
  · exact Or.inl hnone
  · exact Or.inr ⟨j, by omega, hfree, heq⟩

variable {c : Chain} {d : Disk β} {i : Nat} {r : Req β}

/-- A descriptor that is found free is not one that was just taken. -/
theorem ne_of_free {f : Nat → Bool} {j : Nat} (h : update f i false j = true) : j ≠ i ∧ f j = true := by
  have hne : j ≠ i := by
    rintro rfl
    rw [update_self] at h
    cases h
  exact ⟨hne, by rwa [update_of_ne hne] at h⟩

theorem free_desc_spec (hi : i < NUM) (hfree : d.free i = false) : d.free_desc i =
      .ok { d with desc := update d.desc i ⟨.null, 0, 0, 0⟩, free := update d.free i true } := by
  rw [Disk.free_desc, if_neg (Nat.not_le.2 hi), if_neg (by simp [hfree])]

/-- Freeing a descriptor that was free before it was allocated restores the free set. -/
theorem update_free_restore {f : Nat → Bool} (h : f i = true) : update (update f i false) i true = f := by
  rw [update_idem, ← h, update_eq_self]

/-- **`alloc3_desc`** does not panic.  When it fails, the free set is what it was, and only descriptors in it
have been written; otherwise it takes three free descriptors. -/
theorem alloc3_desc_spec (d : Disk β) :
    (∃ desc', d.alloc3_desc = .ok (none, { d with desc := desc' }) ∧ ∀ i, d.free i = false → desc' i = d.desc i) ∨
      ∃ c : Chain, c.slots.Nodup ∧ (∀ i ∈ c.slots, i < NUM ∧ d.free i = true) ∧
        d.alloc3_desc = .ok (some c, { d with free := fun i => d.free i && decide (i ∉ c.slots) }) := by
  unfold Disk.alloc3_desc
  rcases alloc_desc_spec d d.free with hnone | ⟨i, hi, hfi, heq⟩
  · exact Or.inl ⟨d.desc, by rw [hnone]; rfl, fun _ _ => rfl⟩
  rw [show d.alloc_desc = _ from heq]
  simp only []
  have hfree_ne : ∀ {k}, d.free k = true → ∀ i', d.free i' = false → i' ≠ k := by
    rintro k hk _ hi' rfl
    rw [hk] at hi'
    cases hi'
  rcases alloc_desc_spec d (update d.free i false) with hnone | ⟨j, hj, hfj, heq'⟩
  · rw [hnone]
    simp only [free_desc_spec (d := { d with free := update d.free i false }) hi (update_self ..),
      update_free_restore hfi]
    exact Or.inl ⟨_, rfl, fun k hk => update_of_ne (hfree_ne hfi k hk) _ _⟩
  rw [heq']
  simp only []
  obtain ⟨hji, hfj⟩ := ne_of_free hfj
  rcases alloc_desc_spec d (update (update d.free i false) j false)
    with hnone | ⟨k, hk, hfk, heq''⟩
  · rw [hnone]
    simp only []
    rw [free_desc_spec hi (by simp only [update_of_ne hji.symm, update_self])]
    simp only [bind, Except.bind]
    rw [free_desc_spec hj (by simp only [update_of_ne hji, update_self])]
    refine Or.inl ⟨update (update d.desc i ⟨.null, 0, 0, 0⟩) j ⟨.null, 0, 0, 0⟩, ?_,
      fun k hk => ?_⟩
    · simp only [pure, Except.pure, Except.ok.injEq, Prod.mk.injEq, true_and]
      congr 1
      have hcomm := update_comm hji false true (update d.free i false)
      rw [hcomm, update_free_restore hfi, update_free_restore hfj]
    · rw [update_of_ne (hfree_ne hfj k hk), update_of_ne (hfree_ne hfi k hk)]
  rw [heq'']
  obtain ⟨hkj, hfk⟩ := ne_of_free hfk
  obtain ⟨hki, hfk⟩ := ne_of_free hfk
  refine Or.inr ⟨⟨i, j, k⟩, ?_, ?_, ?_⟩
  · simp [Chain.slots, hji.symm, hki.symm, hkj.symm]
  · simp only [Chain.slots, List.mem_cons, List.not_mem_nil, or_false]
    rintro _ (rfl | rfl | rfl)
    exacts [⟨hi, hfi⟩, ⟨hj, hfj⟩, ⟨hk, hfk⟩]
  · simp only [pure, Except.pure, Except.ok.injEq, Prod.mk.injEq, true_and]
    congr 1
    funext x
    simp only [Chain.slots, update_apply, List.mem_cons, List.not_mem_nil, or_false]
    by_cases hxk : x = k <;> by_cases hxj : x = j <;> by_cases hxi : x = i <;> simp [hxk, hxj, hxi]

/-! ## Chains -/

def Req.command (r : Req β) : Command β := ⟨r.b, r.sector, r.write⟩

/-- The chain `c` is formatted for `r`. -/
structure Disk.Formatted (d : Disk β) (r : Req β) (c : Chain) : Prop where
  head : d.desc c.head = ⟨.op c.head, 16, VRING_DESC_F_NEXT, c.data⟩
  data : d.desc c.data =
    ⟨.data r.b, 1024, (if r.write then 0 else VRING_DESC_F_WRITE) ||| VRING_DESC_F_NEXT, c.status⟩
  status : d.desc c.status = ⟨.status c.head, 1, VRING_DESC_F_WRITE, 0⟩
  op : d.ops c.head = ⟨if r.write then VIRTIO_BLK_T_OUT else VIRTIO_BLK_T_IN, 0, r.sector⟩
  info : (d.info c.head).b = some r.b

@[simp]
theorem Chain.head_mem (c : Chain) : c.head ∈ c.slots := by simp [Chain.slots]

@[simp]
theorem Chain.data_mem (c : Chain) : c.data ∈ c.slots := by simp [Chain.slots]

@[simp]
theorem Chain.status_mem (c : Chain) : c.status ∈ c.slots := by simp [Chain.slots]

theorem Chain.slots_nodup (c : Chain) :
    c.slots.Nodup ↔ c.head ≠ c.data ∧ c.head ≠ c.status ∧ c.data ≠ c.status := by
  simp [Chain.slots, and_assoc]

/-- A chain stays formatted when its own descriptors, its header and its buffer stay. -/
theorem Disk.Formatted.congr {d' : Disk β} (h : d.Formatted r c)
    (hdesc : ∀ i ∈ c.slots, d'.desc i = d.desc i) (hops : d'.ops c.head = d.ops c.head)
    (hinfo : (d'.info c.head).b = (d.info c.head).b) : d'.Formatted r c where
  head := (hdesc _ c.head_mem).trans h.head
  data := (hdesc _ c.data_mem).trans h.data
  status := (hdesc _ c.status_mem).trans h.status
  op := hops.trans h.op
  info := hinfo.trans h.info

theorem format_formatted (d : Disk β) (r : Req β) (hc : c.slots.Nodup) : (d.format r c).Formatted r c := by
  obtain ⟨hhd, hhs, hds⟩ := c.slots_nodup.1 hc
  constructor <;> simp [Disk.format, hhd, hhs, hds]

/-- Formatting a chain leaves what belongs to others. -/
theorem format_of_not_mem (d : Disk β) (r : Req β) (hi : i ∉ c.slots) :
    (d.format r c).desc i = d.desc i ∧ (d.format r c).ops i = d.ops i ∧ (d.format r c).info i = d.info i := by
  simp only [Chain.slots, List.mem_cons, List.not_mem_nil, or_false, not_or] at hi
  obtain ⟨hh, hd, hs⟩ := hi
  simp [Disk.format, hh, hd, hs]

/-- The device finds the request in its chain. -/
theorem Disk.Formatted.fetch (h : d.Formatted r c) : d.fetch c.head = some (r.command, c.head) := by
  unfold Disk.fetch
  simp only [h.head, h.data, h.status, h.op]
  cases hw : r.write <;> simp [Req.command, hw, VIRTIO_BLK_T_OUT, VIRTIO_BLK_T_IN]

/-- **`free_chain`** of a formatted chain frees its three descriptors. -/
theorem free_chain_spec {d₀ : Disk β} (h : d₀.Formatted r c) (hdesc : d.desc = d₀.desc)
    (hc : c.slots.Nodup) (hbound : ∀ i ∈ c.slots, i < NUM ∧ d.free i = false) :
    ∃ desc', d.free_chain c.head =
        .ok { d with desc := desc', free := fun i => d.free i || decide (i ∈ c.slots) } ∧
      ∀ i, i ∉ c.slots → desc' i = d.desc i := by
  obtain ⟨hh, hfh⟩ := hbound _ c.head_mem
  obtain ⟨hd, hfd⟩ := hbound _ c.data_mem
  obtain ⟨hs, hfs⟩ := hbound _ c.status_mem
  obtain ⟨hhd, hhs, hds⟩ := c.slots_nodup.1 hc
  have hfree : update (update (update d.free c.head true) c.data true) c.status true =
      fun i => d.free i || decide (i ∈ c.slots) := by
    funext x
    simp only [Chain.slots, update_apply, List.mem_cons, List.not_mem_nil, or_false]
    by_cases hxh : x = c.head <;> by_cases hxd : x = c.data <;> by_cases hxs : x = c.status <;> simp [hxh, hxd, hxs]
  -- one round for each descriptor of the chain; the last one has no successor
  unfold Disk.free_chain
  rw [NUM, Disk.freeLoop]
  simp only [free_desc_spec hh hfh, hdesc, h.head]
  rw [if_pos (by decide), Disk.freeLoop]
  simp only [update_of_ne hhd.symm, h.data]
  rw [free_desc_spec hd (by simpa only [update_of_ne hhd.symm] using hfd)]
  simp only []
  rw [if_pos (by cases r.write <;> decide), Disk.freeLoop]
  simp only [update_of_ne hhs.symm, update_of_ne hds.symm, h.status]
  rw [free_desc_spec hs (by simpa only [update_of_ne hhs.symm, update_of_ne hds.symm] using hfs)]
  simp only []
  rw [if_neg (by decide), hfree]
  refine ⟨_, rfl, fun i hi => ?_⟩
  simp only [Chain.slots, List.mem_cons, List.not_mem_nil, or_false, not_or] at hi
  obtain ⟨hih, hid, his⟩ := hi
  rw [update_of_ne his, update_of_ne hid, update_of_ne hih]

/-! ## Requests in flight -/

/-- The `n`-th request that was published: process `p` waits for `r` on the chain `c`. -/
structure Ticket (ι β : Type) where
  p : ι
  r : Req β
  c : Chain
  n : Nat

/-- The requests in the avail ring, in the device, in the used ring, and those that the interrupt handler has
seen while their process has not gone on. -/
structure Flight (ι β : Type) where
  pend : List (Ticket ι β)
  taken : List (Ticket ι β)
  used : List (Ticket ι β)
  done : List (Ticket ι β)

def Flight.all (F : Flight ι β) : List (Ticket ι β) := F.pend ++ (F.taken ++ (F.used ++ F.done))

def Phase.req : Phase β → Option (Req β)
  | .idle => none
  | .want r => some r
  | .wait r _ _ => some r

/-- The request of the lock holder in `virtio_disk_rw`. -/
def Crit.req : Crit ι β → Option (ι × Req β × Chain)
  | .format p r c => some (p, r, c)
  | .ring p r c => some (p, r, c)
  | .publish p r c => some (p, r, c)
  | _ => none

def Crit.slots (k : Crit ι β) : List Nat :=
  match k.req with
  | some (_, _, c) => c.slots
  | none => []

/-- The descriptors in use. -/
def slots (ts : List (Ticket ι β)) (k : Crit ι β) : List Nat := ts.flatMap (·.c.slots) ++ k.slots

/-- The processes that wait are those of the tickets, with disjoint formatted chains; these and the chain of
the lock holder are exactly the descriptors that are not free. -/
structure Live (s : Sys ι β) (ts : List (Ticket ι β)) : Prop where
  waits : ∀ t : Ticket ι β, s.phase t.p = .wait t.r t.c t.n ↔ t ∈ ts
  formatted : ∀ t ∈ ts, s.disk.Formatted t.r t.c
  nodup : (slots ts s.crit).Nodup
  free : ∀ i, i ∈ slots ts s.crit ↔ i < NUM ∧ s.disk.free i = false
  owner : ∀ p q r r', (s.phase p).req = some r → (s.phase q).req = some r' → r.b = r'.b → p = q
  holder : ∀ p r c, s.crit.req = some (p, r, c) → s.phase p = .want r

/-- What the lock holder in `virtio_disk_rw` has done. -/
def Crit.Done (s : Sys ι β) : Crit ι β → Prop
  | .ring _ r c => s.disk.Formatted r c ∧ s.busy r.b = true
  | .publish _ r c =>
    (s.disk.Formatted r c ∧ s.busy r.b = true) ∧ s.disk.availRing (s.disk.availIdx % NUM) = c.head
  | _ => True

structure Inv (s : Sys ι β) (F : Flight ι β) : Prop where
  live : Live s F.all
  crit : s.crit.Done s
  avail : Ring.Holds NUM (2 ^ 16) s.disk.availRing s.seen s.disk.availIdx (F.pend.map (·.c.head))
  used : Ring.Holds NUM (2 ^ 16) s.disk.usedRing s.disk.used_idx s.disk.usedIdx (F.used.map (·.c.head))
  taken : s.taken = F.taken.map fun t => (t.n, t.c.head)
  /-- The requests are numbered in the order of the avail ring. -/
  numbers : F.pend.map (·.n) = List.range' s.accepted F.pend.length
  published : s.published = s.accepted + F.pend.length
  seen : s.seen = s.accepted % 2 ^ 16
  old : ∀ t ∈ F.taken ++ (F.used ++ F.done), t.n < s.accepted
  busy : ∀ t ∈ F.pend ++ (F.taken ++ F.used), s.busy t.r.b = true
  done : ∀ t ∈ F.done, s.busy t.r.b = false
  status : ∀ t ∈ F.used, (s.disk.info t.c.head).status = 0
  completed : ∀ t ∈ F.used ++ F.done, (t.n, t.r.command) ∈ s.completed

theorem slots_perm {ts ts' : List (Ticket ι β)} (h : ts.Perm ts') (k : Crit ι β) : (slots ts k).Perm (slots ts' k) :=
  (h.flatMap_right _).append_right _

namespace Live

variable {s : Sys ι β} {ts ts' : List (Ticket ι β)}

theorem perm (h : Live s ts) (hp : ts.Perm ts') : Live s ts' where
  waits t := (h.waits t).trans hp.mem_iff
  formatted t ht := h.formatted t (hp.mem_iff.2 ht)
  nodup := (slots_perm hp _).nodup_iff.1 h.nodup
  free i := (slots_perm hp _).mem_iff.symm.trans (h.free i)
  owner := h.owner
  holder := h.holder

theorem slots_pairwise (h : Live s ts) : (∀ t ∈ ts, t.c.slots.Nodup) ∧ ts.Pairwise fun t t' => t.c.slots.Disjoint t'.c.slots :=
  List.nodup_flatMap.1 (List.nodup_append.1 h.nodup).1

theorem nodup_tickets (h : Live s ts) : ts.Nodup := by
  refine h.slots_pairwise.2.imp fun {t t'} hdis heq => ?_
  subst heq
  exact hdis t.c.head_mem t.c.head_mem

variable {t : Ticket ι β}

/-- A process waits for one request. -/
theorem ticket_eq (h : Live s ts) {t' : Ticket ι β} (ht : t ∈ ts) (ht' : t' ∈ ts) (hp : t.p = t'.p) : t = t' := by
  have h₁ := (h.waits t).2 ht
  have h₂ := (h.waits t').2 ht'
  rw [hp, h₂] at h₁
  cases t
  cases t'
  cases hp
  cases h₁
  rfl

/-- Different requests have different buffers. -/
theorem ticket_eq_of_b (h : Live s ts) {t' : Ticket ι β} (ht : t ∈ ts) (ht' : t' ∈ ts) (hb : t.r.b = t'.r.b) :
    t = t' := by
  refine h.ticket_eq ht ht' (h.owner t.p t'.p t.r t'.r ?_ ?_ hb)
  · rw [(h.waits t).2 ht]
    rfl
  · rw [(h.waits t').2 ht']
    rfl

theorem mem_slots (ht : t ∈ ts) {i : Nat} (hi : i ∈ t.c.slots) (k : Crit ι β) : i ∈ slots ts k :=
  List.mem_append_left _ (List.mem_flatMap.2 ⟨t, ht, hi⟩)

theorem length_flatMap_slots (ts : List (Ticket ι β)) : (ts.flatMap (·.c.slots)).length = 3 * ts.length := by
  induction ts with
  | nil => rfl
  | cons t ts ih =>
    rw [List.flatMap_cons, List.length_append, ih, List.length_cons]
    simp only [Chain.slots, List.length_cons, List.length_nil]
    omega

/-- Three descriptors for each request, of `NUM`. -/
theorem length_le (h : Live s ts) : 3 * ts.length + s.crit.slots.length ≤ NUM := by
  have hsub : slots ts s.crit ⊆ List.range NUM := fun i hi => List.mem_range.2 ((h.free i).1 hi).1
  have hlen := (h.nodup.subperm hsub).length_le
  rw [slots, List.length_append, length_flatMap_slots, List.length_range] at hlen
  exact hlen

/-- The buffer of the lock holder is not that of a process that waits. -/
theorem b_ne_holder (h : Live s ts) {p : ι} {r : Req β} {c : Chain} (hk : s.crit.req = some (p, r, c)) (ht : t ∈ ts) : t.r.b ≠ r.b := by
  intro hb
  have hwait := (h.waits t).2 ht
  have hwant := h.holder p r c hk
  have hp : t.p = p := by
    refine h.owner t.p p t.r r ?_ ?_ hb
    · rw [hwait]
      rfl
    · rw [hwant]
      rfl
  rw [hp, hwant] at hwait
  cases hwait

/-- The descriptors of the lock holder are not those of a process that waits. -/
theorem not_mem_holder (h : Live s ts) (ht : t ∈ ts) {i : Nat} (hi : i ∈ t.c.slots) : i ∉ s.crit.slots :=
  fun hi' => List.disjoint_of_nodup_append h.nodup (List.mem_flatMap.2 ⟨t, ht, hi⟩) hi'

/-- A step that does not touch processes or descriptors. -/
theorem congr {s' : Sys ι β} (h : Live s ts) (hphase : s'.phase = s.phase) (hcrit : s'.crit = s.crit)
    (hfree : s'.disk.free = s.disk.free) (hdesc : s'.disk.desc = s.disk.desc) (hops : s'.disk.ops = s.disk.ops)
    (hinfo : ∀ i, (s'.disk.info i).b = (s.disk.info i).b) : Live s' ts where
  waits t := hphase ▸ h.waits t
  formatted t ht := (h.formatted t ht).congr (fun i _ => congrFun hdesc i) (congrFun hops _) (hinfo _)
  nodup := hcrit ▸ h.nodup
  free i := hcrit ▸ hfree ▸ h.free i
  owner := hphase ▸ h.owner
  holder := hcrit ▸ hphase ▸ h.holder

/-- The lock holder goes on with its request. -/
theorem setCrit (h : Live s ts) {k : Crit ι β} (hk : k.req = s.crit.req) : Live { s with crit := k } ts := by
  have hslots : slots ts k = slots ts s.crit := by rw [slots, slots, Crit.slots, Crit.slots, hk]
  refine { h with nodup := ?_, free := fun i => ?_, holder := ?_ }
  · exact hslots ▸ h.nodup
  · exact hslots ▸ h.free i
  · intro p r c hreq
    exact h.holder p r c (hk ▸ hreq)

/-- A process that waits goes on, and its three descriptors become free. -/
theorem remove [DecidableEq ι] (h : Live s (t :: ts)) (hk : s.crit = .free) {d : Disk β}
    (hfree : ∀ i, d.free i = (s.disk.free i || decide (i ∈ t.c.slots)))
    (hd : ∀ t' ∈ ts, d.Formatted t'.r t'.c) :
    Live { s with disk := d, phase := update s.phase t.p .idle } ts := by
  have hreq : ∀ q r, (update s.phase t.p .idle q).req = some r → (s.phase q).req = some r := by
    intro q r hq
    by_cases hqp : q = t.p
    · subst hqp
      rw [update_self] at hq
      cases hq
    · rwa [update_of_ne hqp] at hq
  have hnot : t ∉ ts := (List.nodup_cons.1 h.nodup_tickets).1
  have hsplit : slots (t :: ts) s.crit = t.c.slots ++ slots ts s.crit := by
    simp only [slots, List.flatMap_cons, List.append_assoc]
  have hnodup := h.nodup
  rw [hsplit] at hnodup
  refine { formatted := hd, nodup := (List.nodup_append.1 hnodup).2.1, waits := fun t' => ?_, free := fun i => ?_
           owner := fun p q r r' hp hq => h.owner p q r r' (hreq p r hp) (hreq q r' hq)
           holder := fun p r c hq => ?_ }
  · by_cases hp : t'.p = t.p
    · simp only [hp, update_self]
      constructor
      · intro hwait
        cases hwait
      · intro ht'
        have heq := h.ticket_eq (List.mem_cons_of_mem _ ht') List.mem_cons_self hp
        exact absurd (heq ▸ ht') hnot
    · simp only [update_of_ne hp]
      rw [h.waits t', List.mem_cons]
      refine ⟨fun hor => hor.resolve_left ?_, Or.inr⟩
      rintro rfl
      exact hp rfl
  · have hmem := h.free i
    rw [hsplit, List.mem_append] at hmem
    have hdis : i ∈ slots ts s.crit → i ∉ t.c.slots := fun h₁ h₂ => List.disjoint_of_nodup_append hnodup h₂ h₁
    show i ∈ slots ts s.crit ↔ i < NUM ∧ d.free i = false
    rw [hfree i, Bool.or_eq_false_iff, decide_eq_false_iff_not]
    constructor
    · intro hi
      obtain ⟨hlt, hf⟩ := hmem.1 (Or.inr hi)
      exact ⟨hlt, hf, hdis hi⟩
    · rintro ⟨hlt, hf, hni⟩
      exact (hmem.2 ⟨hlt, hf⟩).resolve_left hni
  · have hnone : s.crit.req = none := by rw [hk]; rfl
    rw [hnone] at hq
    cases hq

/-- The lock holder begins to wait. -/
theorem publish [DecidableEq ι] (h : Live s ts) {p : ι} {r : Req β} {c : Chain} (hk : s.crit.req = some (p, r, c))
    (hc : s.disk.Formatted r c) (n : Nat) :
    Live { s with phase := update s.phase p (.wait r c n), crit := .free } (⟨p, r, c, n⟩ :: ts) := by
  have hwant := h.holder p r c hk
  have hreq : ∀ q, (update s.phase p (.wait r c n) q).req = (s.phase q).req := by
    intro q
    by_cases hqp : q = p
    · rw [hqp, update_self, hwant]
      rfl
    · rw [update_of_ne hqp]
  have hslots : (slots ts s.crit).Perm (slots (⟨p, r, c, n⟩ :: ts) (.free : Crit ι β)) := by
    have hcs : s.crit.slots = c.slots := by rw [Crit.slots, hk]
    rw [slots, slots, hcs, List.flatMap_cons]
    exact List.perm_append_comm.trans (List.append_nil _ ▸ List.Perm.refl _)
  refine { nodup := hslots.nodup_iff.1 h.nodup, free := fun i => hslots.mem_iff.symm.trans (h.free i)
           waits := fun t => ?_, formatted := fun t ht => ?_, owner := fun q q' r₁ r₂ hq hq' => ?_
           holder := fun q r₁ c₁ hq => ?_ }
  · by_cases hp : t.p = p
    · have hnot : t ∉ ts := by
        intro ht
        have hwait := (h.waits t).2 ht
        rw [hp, hwant] at hwait
        cases hwait
      simp only [hp, update_self, List.mem_cons, hnot, or_false]
      constructor
      · intro heq
        cases t
        cases hp
        cases heq
        rfl
      · rintro rfl
        rfl
    · simp only [update_of_ne hp]
      rw [h.waits t, List.mem_cons]
      refine ⟨Or.inr, fun hor => hor.resolve_left ?_⟩
      rintro rfl
      exact hp rfl
  · rcases List.mem_cons.1 ht with rfl | ht
    · exact hc
    · exact h.formatted t ht
  · exact h.owner q q' r₁ r₂ ((hreq q).symm.trans hq) ((hreq q').symm.trans hq')
  · cases hq

end Live

variable {s : Sys ι β} {F : Flight ι β} {p : ι}

theorem Flight.mem_all_of_done {t : Ticket ι β} (ht : t ∈ F.done) : t ∈ F.all := by
  simp [Flight.all, ht]

theorem Flight.mem_all_of_busy {t : Ticket ι β} (ht : t ∈ F.pend ++ (F.taken ++ F.used)) : t ∈ F.all := by
  simp only [Flight.all, List.mem_append] at ht ⊢
  tauto

/-! ## The steps of the driver -/

section driver

theorem req_ne_of_unlocked {b : β} (h : s.Unlocked b) {q : ι} (hq : (s.phase q).req = some r) : r.b ≠ b := by
  have hlock := h q
  cases hph : s.phase q with
  | idle =>
    rw [hph] at hq
    cases hq
  | want r₁ | wait r₁ c n =>
    rw [hph] at hq hlock
    cases hq
    exact hlock

theorem Inv.call [DecidableEq ι] (h : Inv s F) (hp : s.phase p = .idle) (hr : s.Unlocked r.b) :
    Inv { s with phase := update s.phase p (.want r) } F := by
  refine { h with live := { h.live with waits := fun t => ?_, owner := ?_, holder := ?_ } }
  · rw [← h.live.waits t]
    by_cases ht : t.p = p
    · rw [ht, hp]
      simp
    · simp only [update_of_ne ht]
  · intro q q' r₁ r₂ hq hq' heq
    by_cases hqp : q = p
    · by_cases hqp' : q' = p
      · rw [hqp, hqp']
      · subst hqp
        simp only [update_self, update_of_ne hqp', Phase.req, Option.some.injEq] at hq hq'
        subst hq
        exact absurd heq.symm (req_ne_of_unlocked hr hq')
    · by_cases hqp' : q' = p
      · subst hqp'
        simp only [update_self, update_of_ne hqp, Phase.req, Option.some.injEq] at hq hq'
        subst hq'
        exact absurd heq (req_ne_of_unlocked hr hq)
      · simp only [update_of_ne hqp, update_of_ne hqp'] at hq hq'
        exact h.live.owner q q' r₁ r₂ hq hq' heq
  · intro q r₁ c hq
    have hwant := h.live.holder q r₁ c hq
    have hqp : q ≠ p := by
      rintro rfl
      rw [hp] at hwant
      cases hwant
    simpa only [update_of_ne hqp] using hwant

/-- Descriptors of requests in flight are not free, so a failed `alloc3_desc` leaves them alone. -/
theorem Inv.allocFail (h : Inv s F) (hk : s.crit = .free) {desc' : Nat → Desc β}
    (hdesc : ∀ i, s.disk.free i = false → desc' i = s.disk.desc i) :
    Inv { s with disk := { s.disk with desc := desc' } } F := by
  refine { h with live := { h.live with formatted := fun t ht => ?_ }, crit := ?_ }
  · refine (h.live.formatted t ht).congr (fun i hi => hdesc i ?_) rfl rfl
    exact ((h.live.free i).1 (Live.mem_slots ht hi _)).2
  · rw [hk]
    trivial

theorem Inv.allocOk (h : Inv s F) (hk : s.crit = .free) (hp : s.phase p = .want r)
    (hc : c.slots.Nodup) (hfree : ∀ i ∈ c.slots, i < NUM ∧ s.disk.free i = true) :
    Inv { s with disk := { s.disk with free := fun i => s.disk.free i && decide (i ∉ c.slots) }
                 crit := .format p r c } F := by
  have hold : slots F.all s.crit = F.all.flatMap (·.c.slots) := by
    rw [slots, hk]
    exact List.append_nil _
  have hnew : ∀ i ∈ c.slots, i ∉ slots F.all s.crit := by
    intro i hi hmem
    have h₁ := (hfree i hi).2
    rw [((h.live.free i).1 hmem).2] at h₁
    cases h₁
  refine { h with
    crit := trivial
    live :=
      { h.live with
        formatted := fun t ht => (h.live.formatted t ht).congr (fun _ _ => rfl) rfl rfl
        nodup := ?_, free := fun i => ?_, holder := ?_ } }
  · show (F.all.flatMap (·.c.slots) ++ c.slots).Nodup
    rw [← hold]
    exact h.live.nodup.append hc fun i hi hi' => hnew i hi' hi
  · show i ∈ F.all.flatMap (·.c.slots) ++ c.slots ↔ _
    rw [← hold, List.mem_append, h.live.free i]
    simp only [Bool.and_eq_false_iff, decide_eq_false_iff_not, not_not]
    constructor
    · rintro (⟨hlt, hf⟩ | hi)
      · exact ⟨hlt, Or.inl hf⟩
      · exact ⟨(hfree i hi).1, Or.inr hi⟩
    · rintro ⟨hlt, hf | hi⟩
      · exact Or.inl ⟨hlt, hf⟩
      · exact Or.inr hi
  · intro q r₁ c₁ hq
    cases hq
    exact hp

theorem Inv.format [DecidableEq β] (h : Inv s F) (hk : s.crit = .format p r c) :
    Inv { s with disk := s.disk.format r c, busy := update s.busy r.b true, crit := .ring p r c } F := by
  have hreq : s.crit.req = some (p, r, c) := by rw [hk]; rfl
  have hslots : s.crit.slots = c.slots := by rw [hk]; rfl
  have hc : c.slots.Nodup := by
    rw [← hslots]
    exact (List.nodup_append.1 h.live.nodup).2.1
  have hother : ∀ t ∈ F.all, ∀ i ∈ t.c.slots, i ∉ c.slots := by
    intro t ht i hi
    rw [← hslots]
    exact h.live.not_mem_holder ht hi
  refine { h with
    crit := ⟨format_formatted s.disk r hc, update_self ..⟩
    live := { h.live.setCrit (k := .ring p r c) hreq.symm with formatted := fun t ht => ?_ }
    busy := fun t ht => ?_, done := fun t ht => ?_, status := fun t ht => ?_ }
  · refine (h.live.formatted t ht).congr (fun i hi => (format_of_not_mem s.disk r (hother t ht i hi)).1) ?_ ?_
    · exact (format_of_not_mem s.disk r (hother t ht _ t.c.head_mem)).2.1
    · exact congrArg Info.b (format_of_not_mem s.disk r (hother t ht _ t.c.head_mem)).2.2
  · have hne := h.live.b_ne_holder hreq (Flight.mem_all_of_busy ht)
    exact (update_of_ne hne _ _).trans (h.busy t ht)
  · have hne := h.live.b_ne_holder hreq (Flight.mem_all_of_done ht)
    exact (update_of_ne hne _ _).trans (h.done t ht)
  · have hall : t ∈ F.all := Flight.mem_all_of_busy (by simp [ht])
    have hinfo := (format_of_not_mem s.disk r (hother t hall _ t.c.head_mem)).2.2
    exact (congrArg Info.status hinfo).trans (h.status t ht)

theorem NUM_dvd : NUM ∣ 2 ^ 16 := by decide

theorem NUM_lt : NUM < 2 ^ 16 := by decide

/-- There is room in the avail ring for the lock holder. -/
theorem Inv.pend_lt (h : Inv s F) (hk : s.crit.req = some (p, r, c)) : (F.pend.map (·.c.head)).length < NUM := by
  have hlen := h.live.length_le
  rw [Crit.slots, hk] at hlen
  simp only [Chain.slots, List.length_cons, List.length_nil, Flight.all, List.length_append] at hlen
  rw [List.length_map]
  omega

theorem Inv.ring (h : Inv s F) (hk : s.crit = .ring p r c) : Inv { s with
      disk := { s.disk with availRing := update s.disk.availRing (s.disk.availIdx % NUM) c.head }
      crit := .publish p r c } F := by
  have hreq : s.crit.req = some (p, r, c) := by rw [hk]; rfl
  have hcrit := h.crit
  rw [hk] at hcrit
  exact { h with
    crit := ⟨⟨hcrit.1.congr (fun _ _ => rfl) rfl rfl, hcrit.2⟩, update_self ..⟩
    live := (h.live.setCrit (k := .publish p r c) hreq.symm).congr rfl rfl rfl rfl rfl fun _ => rfl
    avail := h.avail.write NUM_dvd (h.pend_lt hreq) c.head }

theorem Inv.publish [DecidableEq ι] (h : Inv s F) (hk : s.crit = .publish p r c) : Inv { s with
      disk := { s.disk with availIdx := (s.disk.availIdx + 1) % 2 ^ 16 }
      phase := update s.phase p (.wait r c s.published)
      crit := .free
      published := s.published + 1 } { F with pend := F.pend ++ [⟨p, r, c, s.published⟩] } := by
  have hreq : s.crit.req = some (p, r, c) := by rw [hk]; rfl
  obtain ⟨⟨hformatted, hbusy⟩, hring⟩ : (Crit.publish p r c).Done s := hk ▸ h.crit
  have hperm : ((⟨p, r, c, s.published⟩ : Ticket ι β) :: F.all).Perm
      (Flight.all { F with pend := F.pend ++ [⟨p, r, c, s.published⟩] }) := by
    simp only [Flight.all, List.append_assoc, List.singleton_append]
    exact List.perm_middle.symm
  refine { h with
    live := ((h.live.publish hreq hformatted s.published).perm hperm).congr rfl rfl rfl rfl rfl fun _ => rfl
    crit := trivial
    avail := ?_, numbers := ?_, published := ?_, busy := fun t ht => ?_ }
  · have hpush := h.avail.push NUM_dvd (h.pend_lt hreq) c.head
    rw [← hring, update_eq_self, hring] at hpush
    rw [List.map_append]
    exact hpush
  · rw [List.map_append, h.numbers, List.length_append, List.length_singleton, List.range'_1_concat, h.published]
    rfl
  · rw [List.length_append, List.length_singleton]
    exact congrArg (· + 1) h.published
  · simp only [List.mem_append, List.mem_singleton] at ht
    rcases ht with (ht | rfl) | ht
    · exact h.busy t (List.mem_append_left _ ht)
    · exact hbusy
    · exact h.busy t (List.mem_append_right _ (List.mem_append.2 ht))

/-- A process whose buffer is done is one that the interrupt handler has seen. -/
theorem Inv.mem_done (h : Inv s F) {n : Nat} (hp : s.phase p = .wait r c n)
    (hidle : s.busy r.b = false) : ⟨p, r, c, n⟩ ∈ F.done := by
  have hall := (h.live.waits ⟨p, r, c, n⟩).1 hp
  have hbusy := h.busy ⟨p, r, c, n⟩
  simp only [Flight.all, List.mem_append] at hall hbusy
  by_contra hnot
  rw [hbusy (by tauto)] at hidle
  cases hidle

/-- A process whose buffer is done frees its chain. -/
theorem Inv.resume [DecidableEq ι] (h : Inv s F) (hk : s.crit = .free) {n : Nat}
    (hp : s.phase p = .wait r c n) (hidle : s.busy r.b = false) :
    ∃ s' F', s.resume p r c = .ok s' ∧ Inv s' F' := by
  have hall : (⟨p, r, c, n⟩ : Ticket ι β) ∈ F.all := (h.live.waits ⟨p, r, c, n⟩).1 hp
  have hdone := h.mem_done hp hidle
  obtain ⟨l₁, l₂, hsplit⟩ := List.append_of_mem hdone
  have hperm : F.all.Perm (⟨p, r, c, n⟩ :: Flight.all { F with done := l₁ ++ l₂ }) := by
    simp only [Flight.all, hsplit]
    simp only [← List.append_assoc]
    exact List.perm_middle
  have hlive := h.live.perm hperm
  have hslots := hlive.slots_pairwise
  have hdis := (List.pairwise_cons.1 hslots.2).1
  obtain ⟨desc', hfree, hdesc⟩ := free_chain_spec
    (d := { s.disk with info := update s.disk.info c.head { s.disk.info c.head with b := none } })
    (h.live.formatted _ hall) rfl (hslots.1 _ List.mem_cons_self)
    fun i hi => (h.live.free i).1 (Live.mem_slots hall hi _)
  have hhead : ∀ t ∈ Flight.all { F with done := l₁ ++ l₂ }, t.c.head ≠ c.head := fun t ht heq =>
    hdis t ht c.head_mem (heq ▸ t.c.head_mem)
  unfold Sys.resume
  rw [if_neg (by simp [hidle])]
  simp only [hfree, bind, Except.bind, pure, Except.pure]
  refine ⟨_, { F with done := l₁ ++ l₂ }, rfl, { h with
    live := hlive.remove hk (fun _ => rfl) fun t ht => ?_
    crit := ?_, old := fun t ht => h.old t ?_, done := fun t ht => h.done t ?_, status := fun t ht => ?_
    completed := fun t ht => h.completed t ?_ }⟩
  · refine (hlive.formatted t (List.mem_cons_of_mem _ ht)).congr (fun i hi => hdesc i fun hi' => hdis t ht hi' hi) rfl ?_
    simp only [update_of_ne (hhead t ht)]
  · show s.crit.Done _
    rw [hk]
    trivial
  · simp only [hsplit, List.mem_append, List.mem_cons] at ht ⊢
    tauto
  · simp only [hsplit, List.mem_append, List.mem_cons] at ht ⊢
    tauto
  · have hmem : t ∈ Flight.all { F with done := l₁ ++ l₂ } := Flight.mem_all_of_busy (by simp [ht])
    simp only [update_of_ne (hhead t hmem)]
    exact h.status t ht
  · simp only [hsplit, List.mem_append, List.mem_cons] at ht ⊢
    tauto

theorem Inv.intr (h : Inv s F) (hk : s.crit = .free) : Inv { s with crit := .intr } F :=
  { h with live := h.live.setCrit (by rw [hk]; rfl), crit := trivial }

/-- The interrupt handler finds the request whose head is next in the used ring. -/
theorem Inv.round [DecidableEq β] (h : Inv s F) (hk : s.crit = .intr) : ∃ s' F', s.round = .ok s' ∧ Inv s' F' := by
  unfold Sys.round
  by_cases hend : s.disk.used_idx = s.disk.usedIdx
  · rw [if_pos hend]
    exact ⟨_, F, rfl, { h with live := h.live.setCrit (by rw [hk]; rfl), crit := trivial }⟩
  rw [if_neg hend]
  rw [h.used.empty_iff NUM_lt] at hend
  cases hused : F.used with
  | nil =>
    rw [hused] at hend
    exact absurd rfl hend
  | cons t used =>
    have hring := h.used
    rw [hused, List.map_cons] at hring
    obtain ⟨hid, hpop⟩ := hring.pop NUM_dvd
    have hmem : t ∈ F.used := by simp [hused]
    have hbusy : t ∈ F.pend ++ (F.taken ++ F.used) := by simp [hmem]
    have hall : t ∈ F.all := Flight.mem_all_of_busy hbusy
    simp only [hid]
    rw [if_neg (not_not.2 (h.status t hmem)), (h.live.formatted t hall).info]
    have hperm : F.all.Perm (Flight.all { F with used := used, done := t :: F.done }) := by
      simp only [Flight.all, hused]
      exact (List.perm_middle.symm.append_left _).append_left _
    have hnodup : (t :: (F.pend ++ (F.taken ++ (used ++ F.done)))).Nodup := by
      refine (List.Perm.nodup_iff ?_).1 h.live.nodup_tickets
      simp only [Flight.all, hused]
      simp only [← List.append_assoc]
      exact (@List.perm_middle _ _ (F.pend ++ F.taken) _).append_right F.done
    have hother : ∀ t' ∈ F.pend ++ (F.taken ++ used), t'.r.b ≠ t.r.b := by
      intro t' ht' hb
      have hall' : t' ∈ F.all := Flight.mem_all_of_busy (by
        simp only [hused, List.mem_append, List.mem_cons] at ht' ⊢
        tauto)
      have heq := h.live.ticket_eq_of_b hall' hall hb
      subst heq
      refine (List.nodup_cons.1 hnodup).1 ?_
      simp only [List.mem_append] at ht' ⊢
      tauto
    refine ⟨_, { F with used := used, done := t :: F.done }, rfl, { h with
      live := (h.live.perm hperm).congr rfl rfl rfl rfl rfl fun _ => rfl
      crit := ?_, used := hpop, old := fun t' ht' => h.old t' ?_
      busy := fun t' ht' => ?_, done := fun t' ht' => ?_
      status := fun t' ht' => h.status t' (hused ▸ List.mem_cons_of_mem _ ht')
      completed := fun t' ht' => h.completed t' ?_ }⟩
    · show s.crit.Done _
      rw [hk]
      trivial
    · simp only [hused, List.mem_append, List.mem_cons] at ht' ⊢
      tauto
    · refine (update_of_ne (hother t' ht') _ _).trans (h.busy t' ?_)
      simp only [hused, List.mem_append, List.mem_cons] at ht' ⊢
      tauto
    · by_cases hb : t'.r.b = t.r.b
      · show update s.busy t.r.b false t'.r.b = false
        rw [hb, update_self]
      · refine (update_of_ne hb _ _).trans (h.done t' ?_)
        rcases List.mem_cons.1 ht' with rfl | ht'
        · exact absurd rfl hb
        · exact ht'
    · simp only [hused, List.mem_append, List.mem_cons] at ht' ⊢
      tauto

/-! ## The steps of the device -/

/-- The device does not touch what the lock holder has written. -/
theorem crit_done_congr {s' : Sys ι β} {k : Crit ι β} (h : k.Done s) (hdesc : s'.disk.desc = s.disk.desc)
    (hops : s'.disk.ops = s.disk.ops) (hinfo : ∀ i, (s'.disk.info i).b = (s.disk.info i).b)
    (havail : s'.disk.availRing = s.disk.availRing ∧ s'.disk.availIdx = s.disk.availIdx) (hbusy : s'.busy = s.busy) :
    k.Done s' := by
  have hformatted : ∀ {r c}, s.disk.Formatted r c → s'.disk.Formatted r c := fun hf =>
    hf.congr (fun i _ => congrFun hdesc i) (congrFun hops _) (hinfo _)
  cases k with
  | ring p r c => exact ⟨hformatted h.1, hbusy ▸ h.2⟩
  | publish p r c => exact ⟨⟨hformatted h.1.1, hbusy ▸ h.1.2⟩, havail.1 ▸ havail.2 ▸ h.2⟩
  | _ => trivial

theorem Inv.take (h : Inv s F) (hne : s.seen ≠ s.disk.availIdx) :
    ∃ F', Inv { s with
      seen := (s.seen + 1) % 2 ^ 16
      taken := s.taken ++ [(s.accepted, s.disk.availRing (s.seen % NUM))]
      accepted := s.accepted + 1 } F' := by
  rw [Ne, h.avail.empty_iff NUM_lt] at hne
  cases hpend : F.pend with
  | nil =>
    rw [hpend] at hne
    exact absurd rfl hne
  | cons t pend =>
    have hring := h.avail
    rw [hpend, List.map_cons] at hring
    obtain ⟨hhead, hpop⟩ := hring.pop NUM_dvd
    have hnumbers := h.numbers
    rw [hpend, List.map_cons, List.length_cons, List.range'_succ, List.cons.injEq] at hnumbers
    have hpublished := h.published
    rw [hpend, List.length_cons] at hpublished
    have hperm : F.all.Perm (Flight.all { F with pend := pend, taken := F.taken ++ [t] }) := by
      simp only [Flight.all, hpend, List.append_assoc, List.cons_append, List.nil_append]
      exact (@List.perm_middle _ _ pend _).symm.trans (List.perm_middle.symm.append_left _)
    refine ⟨{ F with pend := pend, taken := F.taken ++ [t] }, { h with
      live := (h.live.perm hperm).congr rfl rfl rfl rfl rfl fun _ => rfl
      crit := ?_, avail := hpop, taken := ?_, numbers := hnumbers.2, published := ?_, seen := ?_
      old := fun t' ht' => ?_, busy := fun t' ht' => h.busy t' ?_ }⟩
    · exact crit_done_congr h.crit rfl rfl (fun _ => rfl) ⟨rfl, rfl⟩ rfl
    · show s.taken ++ [(s.accepted, s.disk.availRing (s.seen % NUM))] = _
      rw [h.taken, List.map_append, hhead, ← hnumbers.1]
      rfl
    · show s.published = s.accepted + 1 + pend.length
      omega
    · show (s.seen + 1) % 2 ^ 16 = (s.accepted + 1) % 2 ^ 16
      rw [h.seen, Nat.mod_add_mod]
    · show t'.n < s.accepted + 1
      simp only [List.mem_append, List.mem_singleton] at ht'
      rcases ht' with (ht' | rfl) | ht'
      · exact Nat.lt_succ_of_lt (h.old t' (List.mem_append_left _ ht'))
      · exact hnumbers.1 ▸ Nat.lt_succ_self _
      · exact Nat.lt_succ_of_lt (h.old t' (List.mem_append_right _ (List.mem_append.2 ht')))
    · simp only [hpend, List.mem_append, List.mem_cons] at ht' ⊢
      tauto

theorem Inv.complete (h : Inv s F) {k n head : Nat} (hk : s.taken[k]? = some (n, head)) :
    ∃ s' F', s.complete k n head = .ok s' ∧ Inv s' F' := by
  rw [h.taken, List.getElem?_map, Option.map_eq_some_iff] at hk
  obtain ⟨t, ht, heq⟩ := hk
  cases heq
  obtain ⟨hlt, hget⟩ := List.getElem?_eq_some_iff.1 ht
  have hmem : t ∈ F.taken := hget ▸ List.getElem_mem hlt
  have hall : t ∈ F.all := Flight.mem_all_of_busy (by simp [hmem])
  have hperm : F.taken.Perm (t :: F.taken.eraseIdx k) := hget ▸ (List.getElem_cons_eraseIdx_perm hlt).symm
  have hpermAll : F.all.Perm (Flight.all { F with taken := F.taken.eraseIdx k, used := F.used ++ [t] }) := by
    refine List.Perm.append_left _ ?_
    refine (hperm.append_right _).trans ?_
    rw [List.append_assoc, List.cons_append]
    refine List.perm_middle.symm.trans (List.Perm.append_left _ ?_)
    simpa using List.perm_middle.symm
  have herase : ∀ t', t' ∈ F.taken.eraseIdx k → t' ∈ F.taken := fun t' => List.mem_of_mem_eraseIdx
  have hroom : (F.used.map (·.c.head)).length < NUM := by
    have hlen := h.live.length_le
    simp only [Flight.all, List.length_append] at hlen
    have hpos : 0 < F.taken.length := List.length_pos_of_mem hmem
    rw [List.length_map]
    omega
  unfold Sys.complete
  rw [(h.live.formatted t hall).fetch]
  have hinfo : ∀ i, (update s.disk.info t.c.head { s.disk.info t.c.head with status := 0 } i).b =
      (s.disk.info i).b := by
    intro i
    by_cases hi : i = t.c.head
    · rw [hi, update_self]
    · rw [update_of_ne hi]
  refine ⟨_, { F with taken := F.taken.eraseIdx k, used := F.used ++ [t] }, rfl, { h with
    live := (h.live.perm hpermAll).congr rfl rfl rfl rfl rfl hinfo
    crit := crit_done_congr h.crit rfl rfl hinfo ⟨rfl, rfl⟩ rfl
    used := ?_, taken := ?_, old := fun t' ht' => h.old t' ?_, busy := fun t' ht' => h.busy t' ?_
    status := fun t' ht' => ?_, completed := fun t' ht' => ?_ }⟩
  · rw [List.map_append]
    exact h.used.push NUM_dvd hroom t.c.head
  · show s.taken.eraseIdx k = _
    rw [h.taken, List.eraseIdx_map]
  · simp only [List.mem_append, List.mem_singleton] at ht' ⊢
    rcases ht' with ht' | (ht' | rfl) | ht'
    · exact Or.inl (herase t' ht')
    · exact Or.inr (Or.inl ht')
    · exact Or.inl hmem
    · exact Or.inr (Or.inr ht')
  · simp only [List.mem_append, List.mem_singleton] at ht' ⊢
    rcases ht' with ht' | ht' | ht' | rfl
    · exact Or.inl ht'
    · exact Or.inr (Or.inl (herase t' ht'))
    · exact Or.inr (Or.inr ht')
    · exact Or.inr (Or.inl hmem)
  · show (update s.disk.info t.c.head { s.disk.info t.c.head with status := 0 } t'.c.head).status = 0
    by_cases hi : t'.c.head = t.c.head
    · rw [hi, update_self]
    · rw [update_of_ne hi]
      rcases List.mem_append.1 ht' with ht' | ht'
      · exact h.status t' ht'
      · rw [List.mem_singleton.1 ht'] at hi
        exact absurd rfl hi
  · show (t'.n, t'.r.command) ∈ s.completed ++ [(t.n, t.r.command)]
    simp only [List.mem_append, List.mem_singleton] at ht' ⊢
    rcases ht' with (ht' | rfl) | ht'
    · exact Or.inl (h.completed t' (List.mem_append_left _ ht'))
    · exact Or.inr rfl
    · exact Or.inl (h.completed t' (List.mem_append_right _ ht'))

end driver

/-! ## Runs -/

theorem Inv.init (h : s.Init) : Inv s ⟨[], [], [], []⟩ where
  live :=
    { waits := fun t => by simp [h.phase t.p, Flight.all]
      formatted := fun t ht => by simp [Flight.all] at ht
      nodup := by simp [slots, Flight.all, h.crit, Crit.slots, Crit.req]
      free := fun i => by
        simp only [slots, Flight.all, h.crit, Crit.slots, Crit.req, List.flatMap_nil, List.append_nil,
          List.not_mem_nil, false_iff, not_and, Bool.not_eq_false]
        exact h.free i
      owner := fun p q r r' hp => by
        rw [h.phase p] at hp
        cases hp
      holder := fun p r c hp => by
        rw [h.crit] at hp
        cases hp }
  crit := by
    rw [h.crit]
    trivial
  avail := by
    obtain ⟨ha, -, -, hs⟩ := h.rings
    rw [ha, hs]
    exact .nil (by decide)
  used := by
    obtain ⟨-, hu, hu', -⟩ := h.rings
    rw [hu, hu']
    exact .nil (by decide)
  taken := h.counts.2.2
  numbers := rfl
  published := by rw [h.counts.1, h.counts.2.1]; rfl
  seen := by rw [h.rings.2.2.2, h.counts.2.1]; rfl
  old t ht := by simp at ht
  busy t ht := by simp at ht
  done t ht := by simp at ht
  status t ht := by simp at ht
  completed t ht := by simp at ht

/-- The process `p` has the chain `c` for its request `r`. -/
def Sys.InFlight (s : Sys ι β) (p : ι) (r : Req β) (c : Chain) : Prop :=
  (∃ n, s.phase p = .wait r c n) ∨ s.crit.req = some (p, r, c)

theorem Inv.inFlight_slots (h : Inv s F)
    (hp : s.InFlight p r c) : c.slots.Nodup ∧ ∀ i ∈ c.slots, i < NUM ∧ s.disk.free i = false := by
  rcases hp with ⟨n, hwait⟩ | hk
  · have hmem := (h.live.waits ⟨p, r, c, n⟩).1 hwait
    exact ⟨h.live.slots_pairwise.1 _ hmem, fun i hi => (h.live.free i).1 (Live.mem_slots hmem hi _)⟩
  · have hslots : s.crit.slots = c.slots := by rw [Crit.slots, hk]
    refine ⟨hslots ▸ (List.nodup_append.1 h.live.nodup).2.1, fun i hi => (h.live.free i).1 ?_⟩
    exact List.mem_append_right _ (hslots ▸ hi)

/-- The chains of two processes have no descriptor in common. -/
theorem Inv.inFlight_disjoint (h : Inv s F) {q : ι} {r' : Req β} {c' : Chain}
    (hne : p ≠ q) (hp : s.InFlight p r c) (hq : s.InFlight q r' c') : c.slots.Disjoint c'.slots := by
  have hmixed : ∀ {p q r r' c c' n}, s.phase p = .wait r c n → s.crit.req = some (q, r', c') →
      c.slots.Disjoint c'.slots := by
    intro p q r r' c c' n hwait hk i hi hi'
    refine h.live.not_mem_holder ((h.live.waits ⟨p, r, c, n⟩).1 hwait) hi ?_
    rw [Crit.slots, hk]
    exact hi'
  rcases hp with ⟨n, hwait⟩ | hk
  · rcases hq with ⟨n', hwait'⟩ | hk'
    · have hmem := (h.live.waits ⟨p, r, c, n⟩).1 hwait
      have hmem' := (h.live.waits ⟨q, r', c', n'⟩).1 hwait'
      have hsymm : Std.Symm fun t t' : Ticket ι β => t.c.slots.Disjoint t'.c.slots := ⟨fun _ _ hdis => hdis.symm⟩
      refine h.live.slots_pairwise.2.forall hmem hmem' fun heq => ?_
      cases heq
      exact hne rfl
    · exact hmixed hwait hk'
  · rcases hq with ⟨n', hwait'⟩ | hk'
    · exact (hmixed hwait' hk).symm
    · rw [hk] at hk'
      cases hk'
      exact absurd rfl hne

/-- As long as the device has not taken a request, its entry of the avail ring holds its head. -/
theorem Inv.avail_entry (h : Inv s F) {n : Nat}
    (hp : s.phase p = .wait r c n) (hn : s.accepted ≤ n) : s.disk.availRing (n % NUM) = c.head := by
  have hall := (h.live.waits ⟨p, r, c, n⟩).1 hp
  have hpend : (⟨p, r, c, n⟩ : Ticket ι β) ∈ F.pend := by
    rcases List.mem_append.1 hall with hmem | hmem
    · exact hmem
    · exact absurd (h.old _ hmem) (Nat.not_lt.2 hn)
  obtain ⟨j, hj, hget⟩ := List.getElem_of_mem hpend
  have hnumber : n = s.accepted + j := by
    have hmap : (F.pend.map (·.n))[j]? = some n := by
      rw [List.getElem?_map, List.getElem?_eq_getElem hj, hget]
      rfl
    rw [h.numbers, List.getElem?_range' hj, Option.some.injEq, Nat.one_mul] at hmap
    exact hmap.symm
  have hcell := h.avail.cell j (by rwa [List.length_map])
  rw [List.getElem?_map, List.getElem?_eq_getElem hj, hget, h.seen] at hcell
  have hslot : n % NUM = (s.accepted % 2 ^ 16 + j) % NUM := by
    rw [hnumber, Nat.add_mod (s.accepted % 2 ^ 16), Nat.mod_mod_of_dvd _ NUM_dvd, ← Nat.add_mod]
  rw [hslot]
  exact (Option.some.inj hcell).symm

/-- The buffer of a request is released only when the device has completed it. -/
theorem Inv.completed_of_idle (h : Inv s F) {n : Nat}
    (hp : s.phase p = .wait r c n) (hidle : s.busy r.b = false) : (n, r.command) ∈ s.completed := by
  exact h.completed _ (List.mem_append_right _ (h.mem_done hp hidle))

theorem Inv.all_free (h : Inv s F) (hnone : ∀ p r c, ¬ s.InFlight p r c) (hi : i < NUM) : s.disk.free i = true := by
  by_contra hfree
  have hmem := (h.live.free i).2 ⟨hi, by simpa using hfree⟩
  rcases List.mem_append.1 hmem with hmem | hmem
  · obtain ⟨t, ht, -⟩ := List.mem_flatMap.1 hmem
    exact hnone t.p t.r t.c (Or.inl ⟨t.n, (h.live.waits t).2 ht⟩)
  · cases hk : s.crit.req with
    | none =>
      rw [Crit.slots, hk] at hmem
      cases hmem
    | some k => exact hnone k.1 k.2.1 k.2.2 (Or.inr hk)

section runs

variable [DecidableEq ι] [DecidableEq β]

/-- **Every step** keeps the invariant, and none panics. -/
theorem Inv.stepSys {s : Sys ι β} {F : Flight ι β} (h : Inv s F) {a : Act ι β} (hlock : Sys.Locked (.ok s) a)
    {x : Except String (Sys ι β)} (hstep : s.stepSys a = some x) : ∃ s' F', x = .ok s' ∧ Inv s' F' := by
  cases a with
  | call p r =>
    simp only [Sys.stepSys] at hstep
    split at hstep
    · rename_i hp
      cases hstep
      exact ⟨_, F, rfl, h.call hp hlock⟩
    · cases hstep
  | alloc p =>
    simp only [Sys.stepSys] at hstep
    split at hstep
    · rename_i r hk hp
      cases hstep
      rcases alloc3_desc_spec s.disk with ⟨desc', heq, hdesc⟩ | ⟨c, hc, hfree, heq⟩
      · rw [Sys.alloc, heq]
        exact ⟨_, F, rfl, h.allocFail hk hdesc⟩
      · rw [Sys.alloc, heq]
        exact ⟨_, F, rfl, h.allocOk hk hp hc hfree⟩
    · cases hstep
  | format =>
    simp only [Sys.stepSys] at hstep
    split at hstep
    · rename_i p r c hk
      cases hstep
      exact ⟨_, F, rfl, h.format hk⟩
    · cases hstep
  | ring =>
    simp only [Sys.stepSys] at hstep
    split at hstep
    · rename_i p r c hk
      cases hstep
      exact ⟨_, F, rfl, h.ring hk⟩
    · cases hstep
  | publish =>
    simp only [Sys.stepSys] at hstep
    split at hstep
    · rename_i p r c hk
      cases hstep
      exact ⟨_, _, rfl, h.publish hk⟩
    · cases hstep
  | resume p =>
    simp only [Sys.stepSys] at hstep
    split at hstep
    · rename_i r c n hk hp
      cases hstep
      cases hbusy : s.busy r.b with
      | true => exact ⟨s, F, by rw [Sys.resume, if_pos hbusy], h⟩
      | false => exact h.resume hk hp hbusy
    · cases hstep
  | intr =>
    simp only [Sys.stepSys] at hstep
    split at hstep
    · rename_i hk
      cases hstep
      exact ⟨_, F, rfl, h.intr hk⟩
    · cases hstep
  | round =>
    simp only [Sys.stepSys] at hstep
    split at hstep
    · rename_i hk
      cases hstep
      exact h.round hk
    · cases hstep
  | take =>
    simp only [Sys.stepSys] at hstep
    split at hstep
    · cases hstep
    · rename_i hne
      cases hstep
      obtain ⟨F', hF'⟩ := h.take hne
      exact ⟨_, F', rfl, hF'⟩
  | complete k =>
    simp only [Sys.stepSys] at hstep
    split at hstep
    · cases hstep
    · rename_i n head hk
      cases hstep
      exact h.complete hk

/-- The states of the system when every caller of `virtio_disk_rw` holds the lock of its buffer. -/
def Reachable (x : Except String (Sys ι β)) : Prop :=
  Transition.Reach Sys.step Sys.Locked (fun x => ∃ s, x = .ok s ∧ s.Init) x

theorem Reachable.inv {x : Except String (Sys ι β)} (h : Reachable x) : ∃ s F, x = .ok s ∧ Inv s F := by
  refine Transition.Reach.invariant (I := fun x => ∃ s F, x = .ok s ∧ Inv s F) ?_ ?_ h
  · rintro _ ⟨s, rfl, hs⟩
    exact ⟨s, _, rfl, .init hs⟩
  · rintro _ a x' ⟨s, F, rfl, hinv⟩ hlock hstep
    exact hinv.stepSys hlock hstep

/-- **The driver keeps the protocol.**  In every reachable state nothing has panicked; the chains in flight are
disjoint and not free; an avail entry holds its head until the device has taken it, by number and hence across
the wrap-around of the indices; the buffer of a request is released only after the device has completed that
request; a failed `alloc3_desc` leaves the free set; and without requests all descriptors are free. -/
theorem driver_protocol {x : Except String (Sys ι β)} (h : Reachable x) :
    ∃ s, x = .ok s ∧
      (∀ p r c, s.InFlight p r c → c.slots.Nodup ∧ ∀ i ∈ c.slots, i < NUM ∧ s.disk.free i = false) ∧
      (∀ p q r r' c c', p ≠ q → s.InFlight p r c → s.InFlight q r' c' → c.slots.Disjoint c'.slots) ∧
      (s.disk.availIdx = s.published % 2 ^ 16 ∧ s.seen = s.accepted % 2 ^ 16 ∧
        ∀ p r c n, s.phase p = .wait r c n → s.accepted ≤ n → s.disk.availRing (n % NUM) = c.head) ∧
      (∀ p r c n, s.phase p = .wait r c n → s.busy r.b = false → (n, r.command) ∈ s.completed) ∧
      (∀ d', s.disk.alloc3_desc = .ok (none, d') → d'.free = s.disk.free) ∧
      ((∀ p r c, ¬ s.InFlight p r c) → ∀ i, i < NUM → s.disk.free i = true) := by
  obtain ⟨s, F, rfl, hinv⟩ := h.inv
  refine ⟨s, rfl, fun p r c => hinv.inFlight_slots, fun p q r r' c c' => hinv.inFlight_disjoint,
    ⟨?_, hinv.seen, fun p r c n => hinv.avail_entry⟩, fun p r c n => hinv.completed_of_idle, fun d' hfail => ?_,
    fun hnone i => hinv.all_free hnone⟩
  · rw [hinv.avail.write_eq, hinv.seen, Nat.mod_add_mod, List.length_map, hinv.published]
  · rcases alloc3_desc_spec s.disk with ⟨desc', heq, -⟩ | ⟨c, -, -, heq⟩
    · rw [heq] at hfail
      cases hfail
      rfl
    · rw [heq] at hfail
      cases hfail

open Transition in
/-- A read of block 7, up to the interrupt. -/
theorem driver_protocol_read :
    ∃ s : Sys Unit Unit, runActs Sys.step (.ok Sys.init)
        [.call () ⟨(), 7, false⟩, .alloc (), .format, .ring, .publish, .take, .complete 0, .intr, .round] =
          some (.ok s) ∧
      s.phase () = .wait ⟨(), 7, false⟩ ⟨0, 1, 2⟩ 0 ∧ s.busy () = false ∧ (0, ⟨(), 14, false⟩) ∈ s.completed := by
  have hinit : Reachable (.ok (Sys.init : Sys Unit Unit)) := .init ⟨_, rfl, Sys.init_spec⟩
  have hguard : GuardedActs Sys.step Sys.Locked (.ok (Sys.init : Sys Unit Unit))
      [.call () ⟨(), 7, false⟩, .alloc (), .format, .ring, .publish, .take, .complete 0, .intr, .round] := by
    refine ⟨fun _ => trivial, fun x hx => ?_⟩
    cases hx
    refine guardedActs_of_enabled (fun x a _ ha _ => ?_) rfl
    fin_cases ha <;> cases x <;> trivial
  obtain ⟨s, hs, -, -, -, hcompleted, -⟩ := driver_protocol (hinit.runActs hguard rfl)
  cases hs
  exact ⟨_, rfl, rfl, rfl, hcompleted () ⟨(), 7, false⟩ ⟨0, 1, 2⟩ 0 rfl rfl⟩

end runs

end Xv6.Virtio
