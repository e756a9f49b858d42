import Mathlib.Data.List.Chain
import Mathlib.Data.List.Nodup
import Mathlib.Logic.Function.Basic
import Xv6.Lib.Chain

/-!
# Doubly linked rings with a sentinel

The cells have a type `β`; `none` is the sentinel.

* `LinkRing.Holds r l` — from the sentinel `next` leads through the cells `l` and back, and `prev` the other way.
* `LinkRing.pushFront`, `LinkRing.unlink` — the pointer assignments that put a cell behind the sentinel and that take one
  out, with `Holds.pushFront` and `Holds.unlink`.
* `LinkRing.search` — a loop that follows one of the pointers up to the sentinel, with `search_next` and `search_prev`.
-/

variable {β : Type}

structure LinkRing (β : Type) where
  next : Option β → Option β
  prev : Option β → Option β

namespace LinkRing

open Function

section ops

variable [DecidableEq β]

def setNext (r : LinkRing β) (x y : Option β) : LinkRing β := { r with next := Function.update r.next x y }

def setPrev (r : LinkRing β) (x y : Option β) : LinkRing β := { r with prev := Function.update r.prev x y }

/-- The sentinel alone. -/
def init (r : LinkRing β) : LinkRing β := (r.setPrev none none).setNext none none

/-- `b->next = head.next; b->prev = &head; head.next->prev = b; head.next = b`. -/
def pushFront (r : LinkRing β) (b : β) : LinkRing β :=
  let r := r.setNext b (r.next none)
  let r := r.setPrev b none
  let r := r.setPrev (r.next none) b
  r.setNext none b

/-- `b->next->prev = b->prev; b->prev->next = b->next`. -/
def unlink (r : LinkRing β) (b : β) : LinkRing β :=
  let r := r.setPrev (r.next b) (r.prev b)
  r.setNext (r.prev b) (r.next b)

end ops

/-- `y` comes after `x`. -/
def Adj (r : LinkRing β) (x y : Option β) : Prop := r.next x = y ∧ r.prev y = x

structure Holds (r : LinkRing β) (l : List β) : Prop where
  nodup : l.Nodup
  chain : (none :: (l.map some ++ [none])).IsChain r.Adj

variable {r : LinkRing β} {l l₁ l₂ : List β} {b : β}

/-- Only pairs of neighbours matter. -/
theorem isChain_imp_inner {α : Type} {R S : α → α → Prop} {l : List α} (h : l.IsChain R)
    (hS : ∀ x ∈ l.dropLast, ∀ y ∈ l.tail, R x y → S x y) : l.IsChain S := by
  rw [List.isChain_iff_forall_rel_of_append_cons_cons] at h ⊢
  intro x y u v hl
  refine hS x ?_ y ?_ (h hl)
  · rw [hl, List.dropLast_append_of_ne_nil (by simp), List.dropLast_cons_of_ne_nil (by simp)]
    simp
  · rw [hl]
    cases u with
    | nil => simp
    | cons z u => simp

section ops

variable [DecidableEq β]

theorem holds_init (r : LinkRing β) : r.init.Holds [] where
  nodup := List.nodup_nil
  chain := by
    have hadj : r.init.Adj none none := by simp [Adj, init, setNext, setPrev]
    exact .cons_cons hadj (.singleton _)

theorem Holds.pushFront (h : r.Holds l) (hb : b ∉ l) : (r.pushFront b).Holds (b :: l) := by
  obtain ⟨n, B, hn⟩ : ∃ n B, l.map some ++ [none] = n :: B := List.exists_cons_of_ne_nil (by simp)
  have hne : n ≠ some b := by
    intro heq
    have hmem : some b ∈ l.map some ++ [none] := by
      rw [hn, heq]
      exact List.mem_cons_self
    simp [hb] at hmem
  have hchain := h.chain
  rw [hn] at hchain
  obtain ⟨⟨hnext, hprev⟩, hrest⟩ := List.isChain_cons_cons.1 hchain
  have hnext' : (r.pushFront b).next = update (update r.next (some b) n) none (some b) := by
    simp [LinkRing.pushFront, setNext, setPrev, hnext]
  have hprev' : (r.pushFront b).prev = update (update r.prev (some b) none) n (some b) := by
    simp [LinkRing.pushFront, setNext, setPrev, hnext]
  refine ⟨List.nodup_cons.2 ⟨hb, h.nodup⟩, ?_⟩
  rw [List.map_cons, List.cons_append, hn]
  refine .cons_cons ⟨?_, ?_⟩ (.cons_cons ⟨?_, ?_⟩ (isChain_imp_inner hrest ?_))
  · rw [hnext', update_self]
  · rw [hprev', update_of_ne hne.symm, update_self]
  · rw [hnext', update_of_ne (by simp), update_self]
  · rw [hprev', update_self]
  · rw [← hn, List.dropLast_concat]
    intro x hx y hy hxy
    obtain ⟨c, hc, rfl⟩ := List.mem_map.1 hx
    have hcb : some c ≠ some b := by
      intro heq
      exact hb (Option.some.inj heq ▸ hc)
    have hyb : y ≠ some b := by
      rintro rfl
      have := List.mem_of_mem_tail hy
      simp [hb] at this
    have hyn : y ≠ n := by
      rintro rfl
      exact absurd (hxy.2.symm.trans hprev) (by simp)
    constructor
    · rw [hnext', update_of_ne (by simp), update_of_ne hcb]
      exact hxy.1
    · rw [hprev', update_of_ne hyn, update_of_ne hyb]
      exact hxy.2

theorem Holds.unlink (h : r.Holds (l₁ ++ b :: l₂)) : (r.unlink b).Holds (l₁ ++ l₂) := by
  obtain ⟨n, B, hn⟩ : ∃ n B, l₂.map some ++ [none] = n :: B := List.exists_cons_of_ne_nil (by simp)
  obtain ⟨A, p, hp⟩ : ∃ A p, none :: l₁.map some = A ++ [p] := by
    rcases List.eq_nil_or_concat' (none :: l₁.map some) with h0 | h0
    · cases h0
    · exact h0
  have hsplit : ∀ m : List (Option β), none :: (l₁.map some ++ m) = A ++ p :: m := by
    intro m
    rw [← List.cons_append, hp, List.append_assoc]
    rfl
  have hchain := h.chain
  rw [List.map_append, List.map_cons, List.append_assoc, List.cons_append, hn] at hchain
  have hb := h.nodup
  rw [List.nodup_append, List.nodup_cons] at hb
  have hbA : some b ∉ A ++ [p] := by
    rw [← hp]
    simp only [List.mem_cons, reduceCtorEq, List.mem_map, Option.some.injEq, exists_eq_right, false_or]
    exact fun hmem => hb.2.2 b hmem b List.mem_cons_self rfl
  have hbB : some b ∉ n :: B := by
    rw [← hn]
    simpa using hb.2.1.1
  rw [hsplit] at hchain
  obtain ⟨hA, hpb, hbn⟩ := List.isChain_append_cons_cons.1 hchain
  obtain ⟨hbn, hB⟩ := List.isChain_cons_cons.1 hbn
  have hpn : r.prev (some b) = p := hpb.2
  have hne : some b ≠ n := fun heq => hbB (heq ▸ List.mem_cons_self)
  have hnext' : (r.unlink b).next = update r.next p n := by
    simp [LinkRing.unlink, setNext, setPrev, hbn.1, hpn, update_of_ne hne]
  have hprev' : (r.unlink b).prev = update r.prev n p := by
    simp [LinkRing.unlink, setNext, setPrev, hbn.1, hpn]
  -- the neighbours of other cells are neither of the two whose pointers change
  have hkeep : ∀ m : List (Option β), some b ∉ m → ∀ x ∈ m, ∀ y ∈ m, r.Adj x y → (r.unlink b).Adj x y := by
    intro m hm x hx y hy hxy
    have hxp : x ≠ p := by
      rintro rfl
      exact hm ((hxy.1.symm.trans hpb.1) ▸ hy)
    have hyn : y ≠ n := by
      rintro rfl
      exact hm ((hxy.2.symm.trans hbn.2) ▸ hx)
    constructor
    · rw [hnext', update_of_ne hxp]
      exact hxy.1
    · rw [hprev', update_of_ne hyn]
      exact hxy.2
  refine ⟨h.nodup.sublist (List.Sublist.append (List.Sublist.refl l₁) (List.sublist_cons_self b l₂)), ?_⟩
  rw [List.map_append, List.append_assoc, hn, hsplit]
  refine List.isChain_append_cons_cons.2 ⟨?_, ⟨?_, ?_⟩, ?_⟩
  · exact List.IsChain.imp_of_mem_imp (fun x y hx hy => hkeep _ hbA x hx y hy) hA
  · rw [hnext', update_self]
  · rw [hprev', update_self]
  · exact List.IsChain.imp_of_mem_imp (fun x y hx hy => hkeep _ hbB x hx y hy) hB

end ops

/-! ## Following the pointers -/

theorem linked_of_isChain {α : Type} {f : α → α} {x e : α} {m : List α}
    (h : (x :: (m ++ [e])).IsChain fun a b => f a = b) : Linked f x m e := by
  induction m generalizing x with
  | nil => exact (List.isChain_cons_cons.1 h).1
  | cons y m ih =>
    obtain ⟨h1, h2⟩ := List.isChain_cons_cons.1 h
    exact ⟨h1, ih h2⟩

theorem Holds.linked_next (h : r.Holds l) : Linked r.next none (l.map some) none :=
  linked_of_isChain (h.chain.imp fun _ _ hxy => hxy.1)

theorem Holds.linked_prev (h : r.Holds l) : Linked r.prev none (l.reverse.map some) none := by
  apply linked_of_isChain
  have hrev : none :: (l.reverse.map some ++ [none]) = (none :: (l.map some ++ [none])).reverse := by simp
  rw [hrev, List.isChain_reverse]
  exact h.chain.imp fun _ _ hxy => hxy.2

/-- `for(b = x; b != &head; b = f(b)) if(p(b)) …`; the result `none` means that the fuel was too little. -/
def search (f : Option β → Option β) (p : β → Bool) : Nat → Option β → Option (Option β)
  | 0, _ => none
  | _ + 1, none => some none
  | n + 1, some b => if p b then some (some b) else search f p n (f (some b))

theorem search_linked {f : Option β → Option β} (p : β → Bool) {x : Option β} (h : Linked f x (l.map some) none)
    {n : Nat} (hn : l.length < n) : search f p n (f x) = some (l.find? p) := by
  induction l generalizing x n with
  | nil =>
    obtain ⟨n, rfl⟩ : ∃ k, n = k + 1 := ⟨n - 1, by omega⟩
    rw [show f x = none from h]
    rfl
  | cons b l ih =>
    obtain ⟨n, rfl⟩ : ∃ k, n = k + 1 := ⟨n - 1, by omega⟩
    rw [show f x = some b from h.1, search, List.find?_cons]
    cases hp : p b with
    | true => rfl
    | false => exact ih h.2 (by rw [List.length_cons] at hn; omega)

theorem Holds.search_next (h : r.Holds l) (p : β → Bool) {n : Nat} (hn : l.length < n) :
    search r.next p n (r.next none) = some (l.find? p) := search_linked p h.linked_next hn

theorem Holds.search_prev (h : r.Holds l) (p : β → Bool) {n : Nat} (hn : l.length < n) :
    search r.prev p n (r.prev none) = some (l.reverse.find? p) :=
  search_linked p h.linked_prev (by rw [List.length_reverse]; exact hn)

end LinkRing
