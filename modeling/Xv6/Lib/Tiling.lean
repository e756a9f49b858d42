import Mathlib.Data.List.Perm.Basic

/-!
# Tilings by segments

* `Seg` — the addresses from `lo` up to `hi`.
* `Tiles ss rs` — the segments `ss` are nonempty, do not overlap, and cover exactly the regions `rs`.
* `Tiles.merge`, `Tiles.split`, `Tiles.add` — what an allocator does to a tiling.
-/

structure Seg where
  lo : Nat
  hi : Nat
  deriving DecidableEq, Repr

namespace Seg

def Mem (s : Seg) (x : Nat) : Prop := s.lo ≤ x ∧ x < s.hi

def Apart (a b : Seg) : Prop := a.hi ≤ b.lo ∨ b.hi ≤ a.lo

theorem Apart.symm {a b : Seg} (h : a.Apart b) : b.Apart a := Or.symm h

end Seg

structure Tiles (ss rs : List Seg) : Prop where
  pos : ∀ s ∈ ss, s.lo < s.hi
  apart : ss.Pairwise Seg.Apart
  cover : ∀ x, (∃ s ∈ ss, s.Mem x) ↔ ∃ r ∈ rs, r.Mem x

namespace Tiles

variable {a b r : Seg} {ss ss' rs : List Seg}

theorem nil : Tiles [] [] := ⟨by simp, .nil, fun _ => Iff.rfl⟩

theorem perm (h : Tiles ss rs) (hp : ss.Perm ss') : Tiles ss' rs where
  pos s hs := h.pos s (hp.mem_iff.2 hs)
  apart := (hp.pairwise_iff fun h => Seg.Apart.symm h).1 h.apart
  cover x := by
    rw [← h.cover x]
    exact ⟨fun ⟨s, hs, hx⟩ => ⟨s, hp.mem_iff.2 hs, hx⟩, fun ⟨s, hs, hx⟩ => ⟨s, hp.mem_iff.1 hs, hx⟩⟩

/-- Two segments that touch become one. -/
theorem merge (h : Tiles (a :: b :: ss) rs) (hab : a.hi = b.lo) : Tiles (⟨a.lo, b.hi⟩ :: ss) rs := by
  have ha := h.pos a (by simp)
  have hb := h.pos b (by simp)
  obtain ⟨ha', hbs⟩ := List.pairwise_cons.1 h.apart
  obtain ⟨hb', hss⟩ := List.pairwise_cons.1 hbs
  refine ⟨fun s hs => ?_, List.pairwise_cons.2 ⟨fun s hs => ?_, hss⟩, fun x => ?_⟩
  · rcases List.mem_cons.1 hs with rfl | hs
    · show a.lo < b.hi
      omega
    · exact h.pos s (by simp [hs])
  · -- nothing lies between the two
    have h1 := ha' s (by simp [hs])
    have h2 := hb' s hs
    have h3 := h.pos s (by simp [hs])
    unfold Seg.Apart at *
    show b.hi ≤ s.lo ∨ s.hi ≤ a.lo
    omega
  · rw [← h.cover x]
    simp only [List.mem_cons, exists_eq_or_imp, Seg.Mem]
    constructor
    · rintro (hx | hx)
      · rcases Nat.lt_or_ge x a.hi with hlt | hge
        · exact Or.inl ⟨hx.1, hlt⟩
        · exact Or.inr (Or.inl ⟨by omega, hx.2⟩)
      · exact Or.inr (Or.inr hx)
    · rintro (hx | hx | hx)
      · exact Or.inl ⟨hx.1, by omega⟩
      · exact Or.inl ⟨by omega, hx.2⟩
      · exact Or.inr hx

/-- A segment is cut in two. -/
theorem split (h : Tiles (a :: ss) rs) {m : Nat} (hlo : a.lo < m) (hhi : m < a.hi) :
    Tiles (⟨a.lo, m⟩ :: ⟨m, a.hi⟩ :: ss) rs := by
  obtain ⟨ha, hss⟩ := List.pairwise_cons.1 h.apart
  have hpart : ∀ s ∈ ss, (Seg.mk a.lo m).Apart s ∧ (Seg.mk m a.hi).Apart s := by
    intro s hs
    have h1 := ha s hs
    unfold Seg.Apart at *
    dsimp only
    omega
  refine ⟨fun s hs => ?_, List.pairwise_cons.2 ⟨fun s hs => ?_, List.pairwise_cons.2 ⟨fun s hs => ?_, hss⟩⟩,
    fun x => ?_⟩
  · rcases List.mem_cons.1 hs with rfl | hs
    · exact hlo
    · rcases List.mem_cons.1 hs with rfl | hs
      · exact hhi
      · exact h.pos s (by simp [hs])
  · rcases List.mem_cons.1 hs with rfl | hs
    · exact Or.inl (Nat.le_refl _)
    · exact (hpart s hs).1
  · exact (hpart s hs).2
  · rw [← h.cover x]
    simp only [List.mem_cons, exists_eq_or_imp, Seg.Mem]
    constructor
    · rintro (hx | hx | hx)
      · exact Or.inl ⟨hx.1, by omega⟩
      · exact Or.inl ⟨by omega, hx.2⟩
      · exact Or.inr hx
    · rintro (hx | hx)
      · rcases Nat.lt_or_ge x m with hlt | hge
        · exact Or.inl ⟨hx.1, hlt⟩
        · exact Or.inr (Or.inl ⟨hge, hx.2⟩)
      · exact Or.inr (Or.inr hx)

/-- What lies below all regions, or above, lies so of all segments. -/
theorem bounds (h : Tiles ss rs) {lo hi : Nat} (hr : ∀ r ∈ rs, lo ≤ r.lo ∧ r.hi ≤ hi) :
    ∀ s ∈ ss, lo ≤ s.lo ∧ s.hi ≤ hi := by
  intro s hs
  have hpos := h.pos s hs
  obtain ⟨r, hr₁, hx₁⟩ := (h.cover s.lo).1 ⟨s, hs, Nat.le_refl _, hpos⟩
  obtain ⟨r', hr₂, hx₂⟩ := (h.cover (s.hi - 1)).1 ⟨s, hs, by omega, by omega⟩
  have h1 := (hr r hr₁).1
  have h2 := (hr r' hr₂).2
  unfold Seg.Mem at hx₁ hx₂
  omega

/-- A new region above all others. -/
theorem add (h : Tiles ss rs) (hpos : r.lo < r.hi) (habove : ∀ q ∈ rs, q.hi ≤ r.lo) :
    Tiles (r :: ss) (r :: rs) := by
  have hbelow : ∀ s ∈ ss, s.hi ≤ r.lo := fun s hs =>
    (h.bounds (fun q hq => ⟨Nat.zero_le _, habove q hq⟩) s hs).2
  refine ⟨fun s hs => ?_, List.pairwise_cons.2 ⟨fun s hs => Or.inr (hbelow s hs), h.apart⟩, fun x => ?_⟩
  · rcases List.mem_cons.1 hs with rfl | hs
    · exact hpos
    · exact h.pos s hs
  · simp only [List.mem_cons, exists_eq_or_imp, h.cover x]

end Tiles
