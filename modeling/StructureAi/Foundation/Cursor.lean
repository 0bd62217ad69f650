import Mathlib

/-! # Readers over a buffer

A reader moves a cursor over bytes, or fails. `Parses` says of a reader and an encoding that the
reader takes it whole wherever it stands, and fails on what is left when its end is cut off.
A slice may run over the end without failing; it counts only before a reader that does not.
-/
namespace StructureAi.Foundation

abbrev Cursor (ε α : Type) := ReaderT (List UInt8) (StateT ℤ (Except ε)) α

section Readers
variable {ε α β : Type} {r : Cursor ε α} {f : α → Cursor ε β} {bytes bytes' : List UInt8} {a : α} {b : β}

namespace Cursor

def position : Cursor ε ℤ := fun _ pos => .ok (pos,pos)

def seek (pos : ℤ) : Cursor ε Unit := fun _ _ => .ok ((),pos)

theorem bind_ok {buf : List UInt8} {pos pos' : ℤ} (h : r buf pos = .ok (a,pos')) : (r >>= f) buf pos = f a buf pos' := by
  change Except.bind (r buf pos) _ = _
  rw [h]
  rfl

theorem bind_error {buf : List UInt8} {pos : ℤ} {e : ε} (h : r buf pos = .error e) : (r >>= f) buf pos = .error e := by
  change Except.bind (r buf pos) _ = _
  rw [h]
  rfl

end Cursor

/-- The reader takes the bytes, wherever they stand, and yields the value. -/
structure Reads (r : Cursor ε α) (bytes : List UInt8) (a : α) : Prop where
  reads : ∀ before rest, r (before ++ bytes ++ rest) before.length = .ok (a,(before ++ bytes).length)

/-- Of no shorter piece of the bytes does the reader yield anything. -/
structure Parses (r : Cursor ε α) (bytes : List UInt8) (a : α) : Prop extends Reads r bytes a where
  refuses : ∀ before k, k < bytes.length → ∃ e, r (before ++ bytes.take k) before.length = .error e

/-- Where the bytes were cut off, the reader fails, or it goes on past the end. -/
structure Overruns (r : Cursor ε α) (bytes : List UInt8) (a : α) : Prop extends Reads r bytes a where
  passes : ∀ before k, k < bytes.length → (∃ e, r (before ++ bytes.take k) before.length = .error e) ∨
    ∃ a', r (before ++ bytes.take k) before.length = .ok (a',(before ++ bytes).length)

def Demands (r : Cursor ε α) : Prop := ∀ buf pos, (buf.length : ℤ) ≤ pos → ∃ e, r buf pos = .error e

theorem Reads.pure (a : α) : Reads (Pure.pure a : Cursor ε α) [] a := by
  constructor
  intro before rest
  rw [List.append_nil]
  rfl

theorem Reads.bind (hr : Reads r bytes a) (hf : Reads (f a) bytes' b) : Reads (r >>= f) (bytes ++ bytes') b := by
  constructor
  intro before rest
  have hread := hr.reads before (bytes' ++ rest)
  have hnext := hf.reads (before ++ bytes) rest
  rw [← List.append_assoc] at hread
  rw [← List.append_assoc,Cursor.bind_ok hread,hnext]

theorem Reads.bind_refuses (hr : Reads r bytes a) (hf : Parses (f a) bytes' b) (before : List UInt8) {k : ℕ}
    (hk : bytes.length ≤ k) (hcut : k < (bytes ++ bytes').length) :
    ∃ e, (r >>= f) (before ++ (bytes ++ bytes').take k) before.length = .error e := by
  obtain ⟨j,rfl⟩ := Nat.exists_eq_add_of_le hk
  have hj : j < bytes'.length := by
    rw [List.length_append] at hcut
    omega
  obtain ⟨e,he⟩ := hf.refuses (before ++ bytes) j hj
  refine ⟨e,?_⟩
  rw [List.take_length_add_append,← List.append_assoc,Cursor.bind_ok (hr.reads before (bytes'.take j))]
  exact he

theorem Parses.pure (a : α) : Parses (Pure.pure a : Cursor ε α) [] a :=
  ⟨Reads.pure a,fun _ k hk => absurd hk (Nat.not_lt_zero k)⟩

theorem Parses.bind (hr : Parses r bytes a) (hf : Parses (f a) bytes' b) : Parses (r >>= f) (bytes ++ bytes') b := by
  refine ⟨hr.toReads.bind hf.toReads,?_⟩
  intro before k hk
  by_cases hcut : k < bytes.length
  · obtain ⟨e,he⟩ := hr.refuses before k hcut
    rw [List.take_append_of_le_length hcut.le]
    exact ⟨e,Cursor.bind_error he⟩
  · exact hr.toReads.bind_refuses hf before (not_lt.mp hcut) hk

theorem Parses.of_bind_pure (hr : Parses r bytes a) {g : α → β} : Parses (r >>= fun a => Pure.pure (g a)) bytes (g a) := by
  have hmap : Parses (r >>= fun a => Pure.pure (g a)) (bytes ++ []) (g a) := hr.bind (Parses.pure (g a))
  rwa [List.append_nil] at hmap

theorem Parses.bind_still (hr : ∀ buf pos, r buf pos = .ok (a,pos)) (hf : Parses (f a) bytes b) : Parses (r >>= f) bytes b := by
  constructor
  · constructor
    intro before rest
    rw [Cursor.bind_ok (hr _ _)]
    exact hf.reads before rest
  · intro before k hk
    obtain ⟨e,he⟩ := hf.refuses before k hk
    exact ⟨e,(Cursor.bind_ok (hr _ _)).trans he⟩

theorem Parses.seek_end (hr : Parses r bytes a) : Parses
    (do let pos ← Cursor.position
        let a ← r
        Cursor.seek (pos + (bytes.length : ℤ))
        return a) bytes a := by
  constructor
  · constructor
    intro before rest
    have hread := hr.reads before rest
    rw [Cursor.bind_ok (show Cursor.position _ _ = _ from rfl),Cursor.bind_ok hread,List.length_append,Nat.cast_add]
    rfl
  · intro before k hk
    obtain ⟨e,he⟩ := hr.refuses before k hk
    refine ⟨e,?_⟩
    rw [Cursor.bind_ok (show Cursor.position _ _ = _ from rfl)]
    exact Cursor.bind_error he

theorem Overruns.bind (hr : Overruns r bytes a) (hf : Parses (f a) bytes' b) (hdemands : ∀ a', Demands (f a')) :
    Parses (r >>= f) (bytes ++ bytes') b := by
  refine ⟨hr.toReads.bind hf.toReads,?_⟩
  intro before k hk
  by_cases hcut : k < bytes.length
  · rw [List.take_append_of_le_length hcut.le]
    rcases hr.passes before k hcut with ⟨e,he⟩ | ⟨a',ha'⟩
    · exact ⟨e,Cursor.bind_error he⟩
    · rw [Cursor.bind_ok ha']
      apply hdemands a'
      simp only [List.length_append,List.length_take]
      omega
  · exact hr.toReads.bind_refuses hf before (not_lt.mp hcut) hk

theorem Overruns.of_bind_pure (hr : Overruns r bytes a) {g : α → β} : Overruns (r >>= fun a => Pure.pure (g a)) bytes (g a) := by
  have hmap : Reads (r >>= fun a => Pure.pure (g a)) (bytes ++ []) (g a) := hr.toReads.bind (Reads.pure (g a))
  rw [List.append_nil] at hmap
  refine ⟨hmap,?_⟩
  intro before k hk
  rcases hr.passes before k hk with ⟨e,he⟩ | ⟨a',ha'⟩
  · exact Or.inl ⟨e,Cursor.bind_error he⟩
  · exact Or.inr ⟨g a',Cursor.bind_ok ha'⟩

theorem Parses.overruns (hr : Parses r bytes a) : Overruns r bytes a :=
  ⟨hr.toReads,fun before k hk => Or.inl (hr.refuses before k hk)⟩

theorem Parses.bind_overruns (hr : Parses r bytes a) (hf : Overruns (f a) bytes' b) : Overruns (r >>= f)
    (bytes ++ bytes') b := by
  refine ⟨hr.toReads.bind hf.toReads,?_⟩
  intro before k hk
  by_cases hcut : k < bytes.length
  · obtain ⟨e,he⟩ := hr.refuses before k hcut
    rw [List.take_append_of_le_length hcut.le]
    exact Or.inl ⟨e,Cursor.bind_error he⟩
  · obtain ⟨j,rfl⟩ := Nat.exists_eq_add_of_le (not_lt.mp hcut)
    have hj : j < bytes'.length := by
      rw [List.length_append] at hk
      omega
    rw [List.take_length_add_append,← List.append_assoc,← List.append_assoc,
      Cursor.bind_ok (hr.reads before (bytes'.take j))]
    exact hf.passes (before ++ bytes) j hj

theorem Demands.bind (hr : Demands r) : Demands (r >>= f) := by
  intro buf pos hpos
  obtain ⟨e,he⟩ := hr buf pos hpos
  exact ⟨e,Cursor.bind_error he⟩

end Readers
end StructureAi.Foundation
