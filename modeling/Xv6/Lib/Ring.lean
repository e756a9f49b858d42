import Mathlib

/-!
# Ring buffers with free-running counters

A ring of `N` cells is read at `r % N` and written at `w % N`.  The counters run freely modulo `M`
and are compared only by equality.

* `Holds` — the ring holds the queue `q`, its oldest element first.
* `Holds.empty_iff`, `Holds.full_iff` — the two comparisons decide emptiness and fullness.
* `Holds.push`, `Holds.pop`, `Holds.unpush` — writing, reading and taking back one element, also where a
  counter wraps.
* `contents` — the cells from the one counter to the other, whatever the counters; `Holds.contents_eq` says
  that they are the queue of a ring, `contents_cons` takes the first one off.
-/

namespace Ring

variable {α : Type} {N M r w : Nat} {data : Nat → α} {q : List α}

/-- The ring holds `q`. -/
structure Holds (N M : Nat) (data : Nat → α) (r w : Nat) (q : List α) : Prop where
  length_le : q.length ≤ N
  read_lt : r < M
  write_eq : w = (r + q.length) % M
  cell : ∀ j, j < q.length → q[j]? = some (data ((r + j) % N))

theorem Holds.nil (h : r < M) : Holds N M data r r [] where
  length_le := Nat.zero_le _
  read_lt := h
  write_eq := (Nat.mod_eq_of_lt h).symm
  cell j hj := absurd hj (Nat.not_lt_zero j)

/-- Two positions less than `M` apart have the same counter only if they are the same. -/
theorem counter_inj {a b : Nat} (ha : a < M) (hb : b < M)
    (h : (r + a) % M = (r + b) % M) : a = b := by
  have hab : a % M = b % M := Nat.ModEq.add_left_cancel' r h
  rwa [Nat.mod_eq_of_lt ha, Nat.mod_eq_of_lt hb] at hab

/-- **Empty** is `r = w`. -/
theorem Holds.empty_iff (h : Holds N M data r w q) (hNM : N < M) : r = w ↔ q = [] := by
  have hlen := h.length_le
  constructor
  · intro hrw
    have hzero : (r + q.length) % M = (r + 0) % M := by
      rw [← h.write_eq, ← hrw, Nat.add_zero, Nat.mod_eq_of_lt h.read_lt]
    exact List.length_eq_zero_iff.1 (counter_inj (by omega) (by omega) hzero)
  · rintro rfl
    rw [h.write_eq, List.length_nil, Nat.add_zero, Nat.mod_eq_of_lt h.read_lt]

/-- **Full** is `w = r + N` modulo `M`. -/
theorem Holds.full_iff (h : Holds N M data r w q) (hNM : N < M) : w = (r + N) % M ↔ q.length = N := by
  have hlen := h.length_le
  rw [h.write_eq]
  constructor
  · intro heq
    exact counter_inj (by omega) hNM heq
  · intro heq
    rw [heq]

/-- The cell that is written next. -/
theorem Holds.write_cell (h : Holds N M data r w q) (hdvd : N ∣ M) : w % N = (r + q.length) % N := by
  rw [h.write_eq, Nat.mod_mod_of_dvd _ hdvd]

theorem cell_ne {a b : Nat} (hab : a < b) (hb : b < a + N) : (r + a) % N ≠ (r + b) % N := by
  intro h
  have hmod : a % N = b % N := Nat.ModEq.add_left_cancel' r h
  have hdvd : N ∣ b - a := (Nat.modEq_iff_dvd' (Nat.le_of_lt hab)).1 hmod
  have hle := Nat.le_of_dvd (by omega) hdvd
  omega

/-- The cell that is written next holds nothing. -/
theorem Holds.write (h : Holds N M data r w q) (hdvd : N ∣ M) (hroom : q.length < N) (x : α) :
    Holds N M (Function.update data (w % N) x) r w q where
  length_le := h.length_le
  read_lt := h.read_lt
  write_eq := h.write_eq
  cell j hj := by
    rw [h.write_cell hdvd, Function.update_of_ne (cell_ne hj (by omega))]
    exact h.cell j hj

/-- **Writing** one element. -/
theorem Holds.push (h : Holds N M data r w q) (hdvd : N ∣ M) (hroom : q.length < N) (x : α) :
    Holds N M (Function.update data (w % N) x) r ((w + 1) % M) (q ++ [x]) where
  length_le := by
    rw [List.length_append, List.length_singleton]
    omega
  read_lt := h.read_lt
  write_eq := by
    rw [h.write_eq, List.length_append, List.length_singleton, Nat.mod_add_mod, Nat.add_assoc]
  cell j hj := by
    rw [List.length_append, List.length_singleton] at hj
    rw [h.write_cell hdvd]
    by_cases hlast : j = q.length
    · subst hlast
      rw [Function.update_self, List.getElem?_append_right (Nat.le_refl _), Nat.sub_self]
      rfl
    · have hlt : j < q.length := by omega
      rw [← h.write_cell hdvd, List.getElem?_append_left hlt]
      exact (h.write hdvd hroom x).cell j hlt

/-- **Reading** one element. -/
theorem Holds.pop {x : α} (h : Holds N M data r w (x :: q)) (hdvd : N ∣ M) :
    data (r % N) = x ∧ Holds N M data ((r + 1) % M) w q := by
  have hlen := h.length_le
  rw [List.length_cons] at hlen
  have hM : 0 < M := Nat.lt_of_le_of_lt (Nat.zero_le _) h.read_lt
  constructor
  · have hfirst := h.cell 0 (by simp)
    rw [Nat.add_zero] at hfirst
    exact (Option.some.inj hfirst).symm
  · refine ⟨by omega, Nat.mod_lt _ hM, ?_, fun j hj => ?_⟩
    · rw [h.write_eq, List.length_cons, Nat.mod_add_mod]
      congr 1
      omega
    · have hnext := h.cell (j + 1) (by rw [List.length_cons]; omega)
      rw [List.getElem?_cons_succ] at hnext
      rw [hnext, Nat.add_mod ((r + 1) % M) j N, Nat.mod_mod_of_dvd _ hdvd, ← Nat.add_mod]
      congr 3
      omega

/-- **Taking back** the element that was written last. -/
theorem Holds.unpush {x : α} (h : Holds N M data r w (q ++ [x])) (hdvd : N ∣ M) :
    data ((w + (M - 1)) % M % N) = x ∧ Holds N M data r ((w + (M - 1)) % M) q := by
  have hlen := h.length_le
  have hr := h.read_lt
  rw [List.length_append, List.length_singleton] at hlen
  have hback : (w + (M - 1)) % M = (r + q.length) % M := by
    rw [h.write_eq, List.length_append, List.length_singleton, Nat.mod_add_mod,
      show r + (q.length + 1) + (M - 1) = r + q.length + M by omega, Nat.add_mod_right]
  rw [hback]
  constructor
  · have hlast := h.cell q.length (by simp)
    rw [List.getElem?_append_right (Nat.le_refl _), Nat.sub_self] at hlast
    rw [Nat.mod_mod_of_dvd _ hdvd]
    exact (Option.some.inj hlast).symm
  · refine ⟨by omega, hr, rfl, fun j hj => ?_⟩
    have hcell := h.cell j (by rw [List.length_append]; omega)
    rwa [List.getElem?_append_left hj] at hcell

/-- A ring that is not empty has an oldest element. -/
theorem Holds.exists_cons (h : Holds N M data r w q) (hNM : N < M) (hne : r ≠ w) : ∃ x q', q = x :: q' := by
  cases q with
  | nil => exact absurd ((h.empty_iff hNM).2 rfl) hne
  | cons x q' => exact ⟨x, q', rfl⟩

/-- The cells between the counters, in the order in which they will be read. -/
def contents (N M : Nat) (data : Nat → α) (r w : Nat) : List α :=
  (List.range ((w + (M - r)) % M)).map fun j => data ((r + j) % M % N)

/-- The difference of the counters is the number of elements. -/
theorem Holds.count_eq (h : Holds N M data r w q) (hNM : N < M) : (w + (M - r)) % M = q.length := by
  have hlen := h.length_le
  have hr := h.read_lt
  rw [h.write_eq, Nat.mod_add_mod, show r + q.length + (M - r) = q.length + M by omega, Nat.add_mod_right,
    Nat.mod_eq_of_lt (by omega)]

theorem Holds.contents_eq (h : Holds N M data r w q) (hNM : N < M) (hdvd : N ∣ M) :
    contents N M data r w = q := by
  unfold contents
  rw [h.count_eq hNM]
  apply List.ext_getElem?
  intro j
  by_cases hj : j < q.length
  · rw [h.cell j hj, List.getElem?_map, List.getElem?_range hj, Option.map_some, Nat.mod_mod_of_dvd _ hdvd]
  · rw [List.getElem?_eq_none (by simpa using hj), List.getElem?_eq_none (by omega)]

theorem contents_length (N : Nat) (data : Nat → α) (r w : Nat) :
    (contents N M data r w).length = (w + (M - r)) % M := by
  simp [contents]

theorem contents_eq_nil_iff (hr : r < M) (hw : w < M) : contents N M data r w = [] ↔ r = w := by
  rw [← List.length_eq_zero_iff, contents_length]
  constructor
  · intro h
    by_contra hne
    obtain hlt | hlt := Nat.lt_or_gt_of_ne hne
    · rw [show w + (M - r) = (w - r) + M by omega, Nat.add_mod_right, Nat.mod_eq_of_lt (by omega)] at h
      omega
    · rw [Nat.mod_eq_of_lt (by omega)] at h
      omega
  · rintro rfl
    rw [show r + (M - r) = M by omega, Nat.mod_self]

/-- The first of the cells is the one at the read counter. -/
theorem contents_cons (hr : r < M) (hw : w < M) (hne : r ≠ w) :
    contents N M data r w = data (r % M % N) :: contents N M data ((r + 1) % M) w := by
  have hlen : (w + (M - r)) % M = (w + (M - (r + 1) % M)) % M + 1 := by
    obtain hlt | hge := Nat.lt_or_ge (r + 1) M
    · rw [Nat.mod_eq_of_lt hlt]
      obtain hrw | hrw := Nat.lt_or_gt_of_ne hne
      · rw [show w + (M - r) = (w - r) + M by omega, show w + (M - (r + 1)) = (w - (r + 1)) + M by omega,
          Nat.add_mod_right, Nat.add_mod_right, Nat.mod_eq_of_lt (by omega), Nat.mod_eq_of_lt (by omega)]
        omega
      · rw [Nat.mod_eq_of_lt (by omega), Nat.mod_eq_of_lt (by omega)]
        omega
    · obtain rfl : M = r + 1 := by omega
      rw [Nat.mod_self, show w + (r + 1 - r) = w + 1 by omega, Nat.sub_zero, Nat.add_mod_right,
        Nat.mod_eq_of_lt hw, Nat.mod_eq_of_lt (by omega)]
  unfold contents
  rw [hlen, List.range_succ_eq_map, List.map_cons, List.map_map, Nat.add_zero]
  congr 1
  apply List.map_congr_left
  intro j _
  simp only [Function.comp, Nat.mod_add_mod]
  rw [show r + j.succ = r + 1 + j by omega]

end Ring
