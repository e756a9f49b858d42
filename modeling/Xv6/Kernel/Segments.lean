import Xv6.Kernel.Exec
import Xv6.Fs.Contents

/-!
# The image that a file describes

What the program headers of an ELF file say about the memory of a program, with no page tables.

* `loads` — the `PT_LOAD` headers, in the order of the header table.
* `Segments.size`, `Segments.byteAt`, `Segments.permAt` — the end of the last segment, the byte at an address
  and the permissions of a page: a later header overwrites bytes, the first header that reaches a page
  decides its permissions.
* `…_concat` — what one more header adds.
-/

namespace Xv6

/-- `n` program headers from offset `off` of the file. -/
def progHdrs (f : Nat → UInt8) : Nat → Nat → List ProgHdr
  | 0, _ => []
  | n + 1, off => ProgHdr.parse (bytesAt f (off % 2 ^ 32) PROGHDR_SIZE) :: progHdrs f n (off + PROGHDR_SIZE)

def loads (f : Nat → UInt8) (n off : Nat) : List ProgHdr :=
  (progHdrs f n off).filter fun ph => decide (ph.type = ELF_PROG_LOAD)

/-- The header of the file, and the segments that it describes. -/
def elfOf (f : Nat → UInt8) : ElfHdr := ElfHdr.parse (bytesAt f 0 ELFHDR_SIZE)

def segments (f : Nat → UInt8) : List ProgHdr := loads f (elfOf f).phnum (elfOf f).phoff

/-- The address `va` is filled from the file. -/
def ProgHdr.Covers (ph : ProgHdr) (va : Nat) : Prop := ph.vaddr ≤ va ∧ va < ph.vaddr + ph.filesz

instance (ph : ProgHdr) (va : Nat) : Decidable (ph.Covers va) := inferInstanceAs (Decidable (_ ∧ _))

namespace Segments

def size (hs : List ProgHdr) : Nat := (hs.map fun ph => ph.vaddr + ph.memsz).foldl max 0

/-- The last header decides. -/
def byteAt (f : Nat → UInt8) (hs : List ProgHdr) (va : Nat) : UInt8 :=
  match hs.reverse.find? fun ph => decide (ph.Covers va) with
  | some ph => f (ph.off % 2 ^ 32 + (va - ph.vaddr))
  | none => 0

/-- The first header decides. -/
def permAt (hs : List ProgHdr) (v : Nat) : Nat :=
  match hs.find? fun ph => decide (v * PGSIZE < ph.vaddr + ph.memsz) with
  | some ph => flags2perm ph.flags
  | none => 0

variable {f : Nat → UInt8} {hs : List ProgHdr} {ph : ProgHdr} {va v : Nat}

theorem size_concat : size (hs ++ [ph]) = max (size hs) (ph.vaddr + ph.memsz) := by
  simp [size]

theorem byteAt_concat : byteAt f (hs ++ [ph]) va =
    if ph.Covers va then f (ph.off % 2 ^ 32 + (va - ph.vaddr)) else byteAt f hs va := by
  unfold byteAt
  rw [List.reverse_concat, List.find?_cons]
  by_cases h : ph.Covers va
  · simp [h]
  · simp [h]

/-- The segments reach as far as the one that reaches farthest. -/
theorem lt_size_iff {x : Nat} : x < size hs ↔ ∃ ph ∈ hs, x < ph.vaddr + ph.memsz := by
  induction hs using List.reverseRecOn with
  | nil => simp [size]
  | append_singleton hs ph ih =>
    rw [size_concat, lt_max_iff, ih]
    simp only [List.mem_append, List.mem_singleton]
    constructor
    · rintro (⟨qh, hq, hlt⟩ | hlt)
      · exact ⟨qh, Or.inl hq, hlt⟩
      · exact ⟨ph, Or.inr rfl, hlt⟩
    · rintro ⟨qh, hq | rfl, hlt⟩
      · exact Or.inl ⟨qh, hq, hlt⟩
      · exact Or.inr hlt

theorem byteAt_above (hsmall : ∀ ph ∈ hs, ph.filesz ≤ ph.memsz) (h : size hs ≤ va) : byteAt f hs va = 0 := by
  unfold byteAt
  have hnone : hs.reverse.find? (fun ph => decide (ph.Covers va)) = none := by
    rw [List.find?_eq_none]
    intro ph hph hc
    obtain ⟨-, hlt⟩ := of_decide_eq_true hc
    have hmem := List.mem_reverse.1 hph
    have hle := hsmall ph hmem
    have : va < size hs := lt_size_iff.2 ⟨ph, hmem, by omega⟩
    omega
  rw [hnone]

/-- A page that the headers reach keeps its permissions. -/
theorem permAt_concat_old (h : v * PGSIZE < size hs) : permAt (hs ++ [ph]) v = permAt hs v := by
  obtain ⟨qh, hq, hlt⟩ := lt_size_iff.1 h
  have hsome : (hs.find? fun ph => decide (v * PGSIZE < ph.vaddr + ph.memsz)).isSome :=
    List.find?_isSome.2 ⟨qh, hq, decide_eq_true hlt⟩
  unfold permAt
  rw [List.find?_append]
  obtain ⟨r, hr⟩ := Option.isSome_iff_exists.1 hsome
  rw [hr]
  rfl

theorem permAt_concat_new (h : ¬ v * PGSIZE < size hs) (hlt : v * PGSIZE < ph.vaddr + ph.memsz) :
    permAt (hs ++ [ph]) v = flags2perm ph.flags := by
  have hnone : hs.find? (fun ph => decide (v * PGSIZE < ph.vaddr + ph.memsz)) = none := by
    rw [List.find?_eq_none]
    intro qh hq hc
    exact h (lt_size_iff.2 ⟨qh, hq, of_decide_eq_true hc⟩)
  unfold permAt
  rw [List.find?_append, hnone, Option.none_or, List.find?_cons, decide_eq_true hlt]

end Segments

end Xv6
